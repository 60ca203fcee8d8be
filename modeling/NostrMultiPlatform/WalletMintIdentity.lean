import Mathlib
import NostrMultiPlatform.WalletSelection

/-!
# The identity of a mint

A mint is looked up by the canonical form of its URL. The stored form is canonical
already and is made canonical again on every lookup, so proofs are found again only
where the canonical form does not change a second time.
-/
namespace WalletMintIdentity

open WalletProof WalletSelection

structure UrlParts where
  scheme : List Char
  authority : List Char
  path : List Char
  query : List Char

def splitUrl (text : List Char) : Option UrlParts :=
  (splitScheme text).map fun parts =>
    let remainder := parts.2.dropWhile fun c => !endsAuthority c
    ⟨parts.1, parts.2.takeWhile fun c => !endsAuthority c,
      remainder.takeWhile fun c => !endsPath c, remainder.dropWhile fun c => !endsPath c⟩

def UrlParts.text (parts : UrlParts) : List Char :=
  parts.scheme ++ [':', '/', '/'] ++ parts.authority ++ (parts.path ++ parts.query)

def dropSlash (path : List Char) : List Char :=
  if path.getLast? = some '/' then path.dropLast else path

def UrlParts.canonical (parts : UrlParts) : UrlParts :=
  ⟨parts.scheme.map Char.toLower, parts.authority.map Char.toLower, dropSlash parts.path,
    parts.query⟩

/-- The characters of the canonical form. -/
def canonChars (chars : List Char) : List Char :=
  match splitUrl (trimChars chars) with
  | none => trimChars chars
  | some parts => parts.canonical.text

theorem canonicalizeMintUrl_eq (mint : String) :
    canonicalizeMintUrl mint = String.ofList (canonChars mint.toList) := by
  unfold canonicalizeMintUrl canonChars splitUrl
  dsimp only
  cases splitScheme (trimChars mint.toList) with
  | none | some => rfl

theorem trimChars_eq (chars : List Char) :
    trimChars chars = (chars.dropWhile isWhitespace).rdropWhile isWhitespace := rfl

/-- A text that neither begins nor ends in white space. -/
structure Trimmed (chars : List Char) : Prop where
  head : ∀ c, chars.head? = some c → isWhitespace c = false
  last : ∀ c, chars.getLast? = some c → isWhitespace c = false

variable {chars : List Char} {p : Char → Bool} {parts : UrlParts}

theorem dropWhile_eq_self_of_head (h : ∀ c, chars.head? = some c → isWhitespace c = false) :
    chars.dropWhile isWhitespace = chars := by
  cases chars with
  | nil => rfl
  | cons c => rw [List.dropWhile_cons_of_neg (by simp [h c rfl])]

theorem rdropWhile_eq_self_of_last (h : ∀ c, chars.getLast? = some c → isWhitespace c = false) :
    chars.rdropWhile isWhitespace = chars := by
  apply List.rdropWhile_eq_self_iff.mpr
  intro hne
  simp [h _ (List.getLast?_eq_some_getLast hne)]

theorem Trimmed.trimChars_eq (h : Trimmed chars) : trimChars chars = chars := by
  rw [WalletMintIdentity.trimChars_eq, dropWhile_eq_self_of_head h.head,
    rdropWhile_eq_self_of_last h.last]

theorem trimmed_trimChars (chars : List Char) : Trimmed (trimChars chars) := by
  constructor
  · intro c hc
    -- trimming the end leaves a prefix, which begins like the whole
    obtain ⟨rest, hrest⟩ := List.rdropWhile_prefix isWhitespace (chars.dropWhile isWhitespace)
    rw [← WalletMintIdentity.trimChars_eq] at hrest
    have hhead : (chars.dropWhile isWhitespace).head? = some c := by
      rw [← hrest, List.head?_append, hc]
      rfl
    have hnot := List.head?_dropWhile_not isWhitespace chars
    rw [hhead] at hnot
    exact hnot
  · intro c hc
    have hne : trimChars chars ≠ [] := by
      intro hnil
      rw [hnil] at hc
      cases hc
    have hnot := List.rdropWhile_last_not isWhitespace (chars.dropWhile isWhitespace) hne
    rw [List.getLast?_eq_some_getLast hne] at hc
    obtain rfl := Option.some.inj hc
    exact Bool.eq_false_of_not_eq_true hnot

/-- The characters that the splitting looks at. -/
def isMark (c : Char) : Bool := isWhitespace c || c == ':' || endsAuthority c

theorem not_isMark_of_isAlpha {c : Char} (h : c.isAlpha = true) : isMark c = false := by
  have hrange : (65 ≤ c.toNat ∧ c.toNat ≤ 90) ∨ (97 ≤ c.toNat ∧ c.toNat ≤ 122) := by
    simpa [Char.isAlpha, Char.isUpper, Char.isLower, UInt32.le_iff_toNat_le] using h
  have hne : ∀ d : Char, d.toNat ≤ 63 → (c == d) = false := by
    intro d hd
    rw [beq_eq_false_iff_ne]
    rintro rfl
    omega
  simp only [isMark, endsAuthority, hne ':' (by decide), hne '/' (by decide), hne '?' (by decide),
    hne '#' (by decide), Bool.or_false, isWhitespace, Bool.or_eq_false_iff, Bool.and_eq_false_iff,
    decide_eq_false_iff_not, beq_eq_false_iff_ne]
  omega

/-- Lower case changes letters only. -/
theorem toLower_of_isMark {c : Char} (h : isMark c.toLower = true ∨ isMark c = true) :
    c.toLower = c := by
  apply Char.toLower_eq_of_not_isUpper
  intro hupper
  have halpha : c.isAlpha = true := by rw [Char.isAlpha, hupper, Bool.true_or]
  have hlower : c.toLower.isAlpha = true := by rwa [Char.isAlpha_toLower_eq_isAlpha]
  rcases h with h | h
  · rw [not_isMark_of_isAlpha hlower] at h
    cases h
  · rw [not_isMark_of_isAlpha halpha] at h
    cases h

/-- A test that only marks pass does not see the case of a letter. -/
theorem toLower_test (hp : ∀ c, p c = true → isMark c = true) (c : Char) : p c.toLower = p c := by
  cases h : p c.toLower with
  | true => rw [← toLower_of_isMark (.inl (hp _ h)), h]
  | false =>
    cases h' : p c with
    | false => rfl
    | true =>
      rw [toLower_of_isMark (.inr (hp _ h')), h'] at h
      cases h

theorem isWhitespace_toLower (c : Char) : isWhitespace c.toLower = isWhitespace c :=
  toLower_test (p := isWhitespace) (fun c hc => by simp [isMark, hc]) c

theorem endsAuthority_toLower (c : Char) : endsAuthority c.toLower = endsAuthority c :=
  toLower_test (p := endsAuthority) (fun c hc => by simp [isMark, hc]) c

theorem toLower_eq_mark {c d : Char} (hd : isMark d = true) : c.toLower = d ↔ c = d := by
  constructor
  · rintro rfl
    exact (toLower_of_isMark (.inl hd)).symm
  · rintro rfl
    exact toLower_of_isMark (.inr hd)

theorem splitScheme_eq_some {text scheme rest : List Char}
    (h : splitScheme text = some (scheme, rest)) : text = scheme ++ [':', '/', '/'] ++ rest := by
  induction text using splitScheme.induct generalizing scheme with
  | case1 => cases h
  | case2 =>
    rw [splitScheme] at h
    injection h with h
    injection h with hscheme hrest
    subst hscheme hrest
    rfl
  | case3 _ _ hnot ih =>
    rw [splitScheme] at h
    · obtain ⟨parts, hparts, heq⟩ := Option.map_eq_some_iff.mp h
      injection heq with hscheme hrest
      subst hscheme hrest
      rw [ih hparts]
      rfl
    · exact hnot

/-- The scheme ends at the first separator, in lower case too. -/
theorem splitScheme_toLower {text scheme rest : List Char}
    (h : splitScheme text = some (scheme, rest)) (other : List Char) :
    splitScheme (scheme.map Char.toLower ++ [':', '/', '/'] ++ other) =
      some (scheme.map Char.toLower, other) := by
  induction text using splitScheme.induct generalizing scheme with
  | case1 => cases h
  | case2 =>
    rw [splitScheme] at h
    injection h with h
    injection h with hscheme hrest
    subst hscheme
    rfl
  | case3 c _ hnot ih =>
    rw [splitScheme] at h
    · obtain ⟨⟨before, after⟩, hparts, heq⟩ := Option.map_eq_some_iff.mp h
      injection heq with hscheme hrest
      subst hscheme hrest
      have hcs := splitScheme_eq_some hparts
      rw [List.map_cons, List.cons_append, List.cons_append, splitScheme, ih hparts]
      · rfl
      · -- no separator begins at `c`
        intro tail hc htail
        rw [toLower_eq_mark (by decide)] at hc
        match before, hcs with
        | [], hcs => simp at htail
        | [x], hcs => simp at htail
        | x :: y :: more, hcs =>
          simp only [List.map_cons, List.cons_append, List.cons.injEq] at htail
          obtain ⟨hx, hy, -⟩ := htail
          rw [toLower_eq_mark (by decide)] at hx hy
          subst hc hx hy
          exact hnot _ rfl hcs
    · exact hnot

theorem splitUrl_text {text : List Char} (h : splitUrl text = some parts) : text = parts.text := by
  obtain ⟨⟨scheme, rest⟩, hscheme, rfl⟩ := Option.map_eq_some_iff.mp h
  rw [splitScheme_eq_some hscheme]
  simp only [UrlParts.text, List.append_assoc, List.takeWhile_append_dropWhile]

/-- How the parts of a URL look. -/
structure UrlParts.Formed (parts : UrlParts) : Prop where
  scheme : ∀ rest, splitScheme (parts.scheme.map Char.toLower ++ [':', '/', '/'] ++ rest) =
    some (parts.scheme.map Char.toLower, rest)
  authority : ∀ c ∈ parts.authority, endsAuthority c = false
  remainder : ∀ c, (parts.path ++ parts.query).head? = some c → endsAuthority c = true
  path : ∀ c ∈ parts.path, endsPath c = false
  query : ∀ c, parts.query.head? = some c → endsPath c = true

theorem head?_dropWhile_eq {c : Char} (h : (chars.dropWhile fun c => !p c).head? = some c) :
    p c = true := by
  have hnot := List.head?_dropWhile_not (fun c => !p c) chars
  rw [h] at hnot
  simpa using hnot

theorem formed_of_splitUrl {text : List Char} (h : splitUrl text = some parts) : parts.Formed := by
  obtain ⟨⟨scheme, rest⟩, hscheme, rfl⟩ := Option.map_eq_some_iff.mp h
  constructor
  · exact splitScheme_toLower hscheme
  · intro c hc
    simpa using List.mem_takeWhile_imp hc
  · intro c hc
    rw [List.takeWhile_append_dropWhile] at hc
    exact head?_dropWhile_eq hc
  · intro c hc
    simpa using List.mem_takeWhile_imp hc
  · exact fun c hc => head?_dropWhile_eq hc

theorem takeWhile_append_of_head {xs ys : List Char} (hxs : ∀ c ∈ xs, p c = false)
    (hys : ∀ c, ys.head? = some c → p c = true) :
    (xs ++ ys).takeWhile (fun c => !p c) = xs ∧ (xs ++ ys).dropWhile (fun c => !p c) = ys := by
  have hall : ∀ c ∈ xs, (!p c) = true := fun c hc => by simp [hxs c hc]
  rw [List.takeWhile_append_of_pos hall, List.dropWhile_append_of_pos hall]
  cases ys with
  | nil => simp
  | cons c => simp [hys c rfl]

theorem dropSlash_eq (path : List Char) :
    ∃ slash, path = dropSlash path ++ slash ∧ (slash = [] ∨ slash = ['/']) := by
  unfold dropSlash
  split
  next hlast =>
    obtain ⟨before, rfl⟩ := List.getLast?_eq_some_iff.mp hlast
    exact ⟨['/'], by simp, .inr rfl⟩
  · exact ⟨[], by simp, .inl rfl⟩

/-- The canonical form splits into the canonical parts. -/
theorem UrlParts.Formed.splitUrl_canonical (h : parts.Formed) :
    splitUrl parts.canonical.text = some parts.canonical := by
  obtain ⟨slash, hpath, hslash⟩ := dropSlash_eq parts.path
  have hauthority : ∀ c ∈ parts.authority.map Char.toLower, endsAuthority c = false := by
    intro c hc
    obtain ⟨d, hd, rfl⟩ := List.mem_map.mp hc
    rw [endsAuthority_toLower, h.authority d hd]
  have hremainder : ∀ c, (dropSlash parts.path ++ parts.query).head? = some c →
      endsAuthority c = true := by
    intro c hc
    cases hdropped : dropSlash parts.path with
    | nil =>
      rw [hdropped, List.nil_append] at hc
      have hend := h.query c hc
      simp only [endsPath, Bool.or_eq_true] at hend
      simp only [endsAuthority, Bool.or_eq_true]
      rcases hend with hend | hend
      · exact .inl (.inr hend)
      · exact .inr hend
    | cons =>
      apply h.remainder
      rw [hpath, hdropped]
      rw [hdropped] at hc
      exact hc
  have hpath' : ∀ c ∈ dropSlash parts.path, endsPath c = false := by
    intro c hc
    apply h.path
    rw [hpath]
    exact List.mem_append_left slash hc
  have hsplit := takeWhile_append_of_head hauthority hremainder
  have hsplit' := takeWhile_append_of_head hpath' h.query
  unfold splitUrl UrlParts.text
  rw [List.append_assoc (_ ++ _)]
  change (splitScheme (parts.scheme.map Char.toLower ++ [':', '/', '/'] ++
    (parts.authority.map Char.toLower ++ (dropSlash parts.path ++ parts.query)))).map _ = _
  rw [h.scheme, Option.map_some]
  dsimp only
  rw [hsplit.1, hsplit.2, hsplit'.1, hsplit'.2]
  rfl

def NoBlankEnd (chars : List Char) : Prop := ∀ c, chars.getLast? = some c → isWhitespace c = false

theorem noBlankEnd_append {xs ys : List Char} (h : ys ≠ []) :
    NoBlankEnd (xs ++ ys) ↔ NoBlankEnd ys := by
  unfold NoBlankEnd
  rw [List.getLast?_append_of_ne_nil xs h]

theorem noBlankEnd_nil : NoBlankEnd [] := fun _ hc => nomatch hc

theorem noBlankEnd_toLower (xs ys : List Char) :
    NoBlankEnd (xs.map Char.toLower ++ ys) ↔ NoBlankEnd (xs ++ ys) := by
  by_cases h : ys = []
  · subst h
    simp only [NoBlankEnd, List.append_nil, List.getLast?_map, Option.map_eq_some_iff]
    constructor
    · intro hlower c hc
      rw [← isWhitespace_toLower]
      exact hlower _ ⟨c, hc, rfl⟩
    · rintro hplain _ ⟨c, hc, rfl⟩
      rw [isWhitespace_toLower]
      exact hplain c hc
  · rw [noBlankEnd_append h, noBlankEnd_append h]

theorem noBlankEnd_after_separator (scheme body : List Char) :
    NoBlankEnd (scheme ++ [':', '/', '/'] ++ body) ↔ NoBlankEnd body := by
  by_cases h : body = []
  · subst h
    refine iff_of_true (fun c hc => ?_) noBlankEnd_nil
    rw [List.append_nil, List.getLast?_append_of_ne_nil _ (by simp)] at hc
    obtain rfl := Option.some.inj hc
    decide
  · exact noBlankEnd_append h

theorem noBlankEnd_text (parts : UrlParts) :
    NoBlankEnd parts.text ↔ NoBlankEnd (parts.authority ++ (parts.path ++ parts.query)) := by
  rw [UrlParts.text, List.append_assoc (_ ++ _)]
  exact noBlankEnd_after_separator _ _

theorem noBlankEnd_canonical (parts : UrlParts) :
    NoBlankEnd parts.canonical.text ↔
      NoBlankEnd (parts.authority ++ (dropSlash parts.path ++ parts.query)) := by
  rw [noBlankEnd_text]
  exact noBlankEnd_toLower _ _

theorem head_canonical (h : Trimmed parts.text) :
    ∀ c, parts.canonical.text.head? = some c → isWhitespace c = false := by
  intro c hc
  have hhead := h.head
  unfold UrlParts.text at hhead
  simp only [UrlParts.text, UrlParts.canonical] at hc
  cases hscheme : parts.scheme with
  | nil =>
    rw [hscheme] at hc
    obtain rfl := Option.some.inj hc
    decide
  | cons d =>
    rw [hscheme] at hc hhead
    obtain rfl := Option.some.inj hc
    rw [isWhitespace_toLower]
    exact hhead d rfl

/-- Once the slash at the end of the path is gone there is no other one, nor, where the path ends
the text, white space. -/
def UrlParts.Settles (parts : UrlParts) : Prop :=
  parts.path.getLast? = some '/' →
    parts.path.dropLast.getLast? ≠ some '/' ∧
      (parts.query = [] → NoBlankEnd (parts.authority ++ parts.path.dropLast))

theorem UrlParts.settles_iff (h : Trimmed parts.text) :
    parts.Settles ↔ NoBlankEnd parts.canonical.text ∧
      dropSlash (dropSlash parts.path) = dropSlash parts.path := by
  rw [noBlankEnd_canonical]
  have hlast : NoBlankEnd (parts.authority ++ (parts.path ++ parts.query)) :=
    (noBlankEnd_text parts).mp h.last
  by_cases hslash : parts.path.getLast? = some '/'
  · have hdropped : dropSlash parts.path = parts.path.dropLast := if_pos hslash
    have hagain : dropSlash parts.path.dropLast = parts.path.dropLast ↔
        parts.path.dropLast.getLast? ≠ some '/' := by
      unfold dropSlash
      constructor
      · intro heq hmore
        rw [if_pos hmore] at heq
        have hne : parts.path.dropLast ≠ [] := by
          intro hnil
          rw [hnil] at hmore
          cases hmore
        have hlength := congrArg List.length heq
        rw [List.length_dropLast] at hlength
        have hpos := List.length_pos_of_ne_nil hne
        omega
      · exact fun hno => if_neg hno
    have hend : NoBlankEnd (parts.authority ++ (parts.path.dropLast ++ parts.query)) ↔
        (parts.query = [] → NoBlankEnd (parts.authority ++ parts.path.dropLast)) := by
      by_cases hquery : parts.query = []
      · simp [hquery]
      · refine iff_of_true ?_ fun hnone => absurd hnone hquery
        rw [← List.append_assoc, noBlankEnd_append hquery] at hlast ⊢
        exact hlast
    rw [hdropped, hagain, hend, and_comm]
    exact ⟨fun hsettles => hsettles hslash, fun hboth _ => hboth⟩
  · have hkept : dropSlash parts.path = parts.path := if_neg hslash
    rw [hkept]
    exact iff_of_true (fun hends => absurd hends hslash) ⟨hlast, hkept⟩

def SettlesAtOnce (mint : String) : Prop :=
  match splitUrl (trimChars mint.toList) with
  | none => True
  | some parts => parts.Settles

theorem length_canonical_le (parts : UrlParts) :
    parts.canonical.text.length ≤ parts.text.length := by
  have hpath : (dropSlash parts.path).length ≤ parts.path.length := by
    obtain ⟨slash, hslash, -⟩ := dropSlash_eq parts.path
    have hlength := congrArg List.length hslash
    rw [List.length_append] at hlength
    omega
  simp only [UrlParts.text, UrlParts.canonical, List.length_append, List.length_map]
  omega

theorem length_canonChars_le (chars : List Char) :
    (canonChars chars).length ≤ (trimChars chars).length := by
  unfold canonChars
  split
  · exact le_refl _
  next parts hparts =>
    rw [splitUrl_text hparts]
    exact length_canonical_le parts

theorem canonical_canonical (parts : UrlParts) :
    parts.canonical.canonical.text = parts.canonical.text ↔
      dropSlash (dropSlash parts.path) = dropSlash parts.path := by
  simp [UrlParts.text, UrlParts.canonical, Function.comp_def]

/-- A second time changes nothing exactly when the mint settles at once. -/
theorem canonicalize_idempotent_iff (mint : String) :
    canonicalizeMintUrl (canonicalizeMintUrl mint) = canonicalizeMintUrl mint ↔
      SettlesAtOnce mint := by
  rw [canonicalizeMintUrl_eq (canonicalizeMintUrl mint), canonicalizeMintUrl_eq mint,
    String.toList_ofList, String.ofList_inj]
  have htrimmed := trimmed_trimChars mint.toList
  unfold SettlesAtOnce
  cases hsplit : splitUrl (trimChars mint.toList) with
  | none =>
    have hcanon : canonChars mint.toList = trimChars mint.toList := by simp only [canonChars, hsplit]
    rw [hcanon, canonChars, htrimmed.trimChars_eq, hsplit]
    exact iff_of_true rfl trivial
  | some parts =>
    have hcanon : canonChars mint.toList = parts.canonical.text := by simp only [canonChars, hsplit]
    have htext := splitUrl_text hsplit
    have hparts : Trimmed parts.text := htext ▸ htrimmed
    rw [hcanon]
    refine Iff.trans ?_ (UrlParts.settles_iff hparts).symm
    constructor
    · intro hsame
      have hlength := length_canonChars_le parts.canonical.text
      rw [hsame] at hlength
      -- trimming takes nothing away, or the second form would be shorter
      have htrim : trimChars parts.canonical.text = parts.canonical.text := by
        have hsublist : (trimChars parts.canonical.text).Sublist parts.canonical.text :=
          (List.rdropWhile_prefix _ _).sublist.trans (List.dropWhile_sublist _)
        exact hsublist.eq_of_length_le hlength
      have hend : NoBlankEnd parts.canonical.text := by
        have hlast := (trimmed_trimChars parts.canonical.text).last
        rwa [htrim] at hlast
      rw [canonChars, htrim, (formed_of_splitUrl hsplit).splitUrl_canonical] at hsame
      exact ⟨hend, (canonical_canonical parts).mp hsame⟩
    · rintro ⟨hend, hpath⟩
      have htrim : trimChars parts.canonical.text = parts.canonical.text :=
        Trimmed.trimChars_eq ⟨head_canonical hparts, hend⟩
      rw [canonChars, htrim, (formed_of_splitUrl hsplit).splitUrl_canonical]
      exact (canonical_canonical parts).mpr hpath

/-- The sum of the amounts. -/
def amountsOf (proofs : List Proof) : Nat := (proofs.map Proof.amount).sum

/-- The proofs added under one string are found under another: by a selection that they cover, in
the group of the mint, and as a source of a transfer to any other mint but not to this one. -/
structure FoundUnder (held : List StoredProof) (tokenEvent : Option String) (mint other : String)
    (proofs : List Proof) : Prop where
  selected : ∀ amount ≤ amountsOf proofs, sumOf (held ++ attach tokenEvent mint proofs) < u64Modulus →
    (selectProofs (held ++ attach tokenEvent mint proofs) other amount).isSome
  grouped : ∃ group, (canonicalizeMintUrl other, group) ∈
      groupByMint (held ++ attach tokenEvent mint proofs) ∧
    ∀ s ∈ attach tokenEvent mint proofs, s ∈ group
  source : ∀ exclude, ∀ minAmount ≤ amountsOf proofs,
    canonicalizeMintUrl other ≠ canonicalizeMintUrl exclude →
    isKnownValuelessMint (canonicalizeMintUrl other) = false →
    sumOf (held ++ attach tokenEvent mint proofs) < u64Modulus →
    ∃ total, (canonicalizeMintUrl other, total) ∈
        spendableSourceCandidatesExcluding (held ++ attach tokenEvent mint proofs) exclude minAmount ∧
      amountsOf proofs ≤ total
  target : ∀ minAmount, ∀ candidate ∈
    spendableSourceCandidatesExcluding (held ++ attach tokenEvent mint proofs) other minAmount,
      ∀ s ∈ attach tokenEvent mint proofs, candidate.1 ≠ canonicalizeMintUrl s.mint

section
variable {held : List StoredProof} {tokenEvent : Option String} {mint other : String}
  {proofs : List Proof}

theorem sumOf_attach (tokenEvent : Option String) (mint : String) (proofs : List Proof) :
    sumOf (attach tokenEvent mint proofs) = amountsOf proofs := by
  simp [sumOf, attach, amountsOf, Function.comp_def]

theorem sumOf_sublist {xs ys : List StoredProof} (h : xs.Sublist ys) : sumOf xs ≤ sumOf ys := by
  induction h with
  | slnil => exact le_refl _
  | cons => rw [sumOf_cons]; omega
  | cons_cons => rw [sumOf_cons, sumOf_cons]; omega

theorem mint_of_mem_attach {s : StoredProof} (h : s ∈ attach tokenEvent mint proofs) :
    s.mint = canonicalizeMintUrl mint := by
  obtain ⟨p, -, rfl⟩ := List.mem_map.mp h
  rfl

variable {inventory : List StoredProof}

/-- Where the canonical form is stable, the added proofs pass a test by mint. -/
theorem attach_sublist_filter {p : String → Bool}
    (hpart : (attach tokenEvent mint proofs).Sublist inventory)
    (hstable : canonicalizeMintUrl (canonicalizeMintUrl mint) = canonicalizeMintUrl mint)
    (hp : p (canonicalizeMintUrl mint) = true) :
    (attach tokenEvent mint proofs).Sublist
      (inventory.filter fun s => p (canonicalizeMintUrl s.mint)) := by
  have hall : (attach tokenEvent mint proofs).filter (fun s => p (canonicalizeMintUrl s.mint)) =
      attach tokenEvent mint proofs := by
    apply List.filter_eq_self.mpr
    intro s hs
    rw [mint_of_mem_attach hs, hstable, hp]
  have hfiltered := hpart.filter fun s => p (canonicalizeMintUrl s.mint)
  rwa [hall] at hfiltered

/-- The proofs that a transfer to the excluded mint may come from. -/
def eligibleSources (held : List StoredProof) (exclude : String) : List StoredProof :=
  held.filter fun s => canonicalizeMintUrl s.mint ≠ canonicalizeMintUrl exclude ∧
    isKnownValuelessMint (canonicalizeMintUrl s.mint) = false

theorem mem_candidates {exclude : String} {minAmount : Nat} {candidate : String × Nat} :
    candidate ∈ spendableSourceCandidatesExcluding held exclude minAmount ↔
      (∃ s ∈ eligibleSources held exclude, canonicalizeMintUrl s.mint = candidate.1) ∧
        candidate.2 = sumAmounts (((eligibleSources held exclude).filter fun s =>
          canonicalizeMintUrl s.mint = candidate.1).map StoredProof.proof) ∧
        minAmount ≤ candidate.2 := by
  unfold spendableSourceCandidatesExcluding
  simp only [List.mem_mergeSort, List.mem_filter, List.mem_map, List.mem_dedup, decide_eq_true_eq,
    exists_exists_and_eq_and]
  constructor
  · rintro ⟨⟨s, hs, rfl⟩, hmin⟩
    exact ⟨⟨s, List.mem_filter.mpr (by simpa using hs), rfl⟩, rfl, hmin⟩
  · obtain ⟨mint, total⟩ := candidate
    rintro ⟨⟨s, hs, hmint⟩, htotal, hmin⟩
    dsimp only at hmint htotal hmin
    subst hmint
    exact ⟨⟨s, by simpa using List.mem_filter.mp hs, by rw [htotal]; rfl⟩, hmin⟩

/-- A sum that fits in a word is what the 64-bit sum holds. -/
theorem sumAmounts_of_sublist {part inventory : List StoredProof} (hpart : part.Sublist inventory)
    (hword : sumOf inventory < u64Modulus) : sumAmounts (part.map StoredProof.proof) = sumOf part := by
  rw [sumAmounts, foldl_addU64 _ _ (by decide), Nat.zero_add, List.map_map]
  exact Nat.mod_eq_of_lt ((sumOf_sublist hpart).trans_lt hword)

theorem selected_of_stable {amount : Nat}
    (hpart : (attach tokenEvent mint proofs).Sublist (atMint inventory other))
    (hamount : amount ≤ amountsOf proofs) (hword : sumOf inventory < u64Modulus) :
    (selectProofs inventory other amount).isSome := by
  have hsum : amount ≤ sumOf (atMint inventory other) :=
    hamount.trans (sumOf_attach tokenEvent mint proofs ▸ sumOf_sublist hpart)
  have hall : totalTo (atMint inventory other) (atMint inventory other).length =
      sumOf (atMint inventory other) := by
    rw [totalTo, List.take_length]
    exact Nat.mod_eq_of_lt ((sumOf_sublist List.filter_sublist).trans_lt hword)
  by_contra hnone
  rw [Option.not_isSome_iff_eq_none, selectProofs_eq_none] at hnone
  have hshort := hnone _ (le_refl _)
  omega

theorem source_of_stable {exclude : String} {minAmount : Nat}
    (hpart : (attach tokenEvent mint proofs).Sublist ((eligibleSources inventory exclude).filter fun s => canonicalizeMintUrl s.mint = canonicalizeMintUrl other))
    (hsome : proofs ≠ []) (hmin : minAmount ≤ amountsOf proofs)
    (hword : sumOf inventory < u64Modulus) :
    ∃ total, (canonicalizeMintUrl other, total) ∈
        spendableSourceCandidatesExcluding inventory exclude minAmount ∧ amountsOf proofs ≤ total := by
  have hcovers := sumOf_attach tokenEvent mint proofs ▸ sumOf_sublist hpart
  have htotal := sumAmounts_of_sublist (List.filter_sublist.trans List.filter_sublist :
    ((eligibleSources inventory exclude).filter fun s =>
      canonicalizeMintUrl s.mint = canonicalizeMintUrl other).Sublist inventory) hword
  rw [← htotal] at hcovers
  obtain ⟨p, hp⟩ := List.exists_mem_of_ne_nil proofs hsome
  have hadded : (⟨tokenEvent, canonicalizeMintUrl mint, p⟩ : StoredProof) ∈
      attach tokenEvent mint proofs := List.mem_map.mpr ⟨p, hp, rfl⟩
  obtain ⟨heligible, hmint⟩ := List.mem_filter.mp (hpart.subset hadded)
  exact ⟨_, mem_candidates.mpr ⟨⟨_, heligible, of_decide_eq_true hmint⟩, rfl, hmin.trans hcovers⟩,
    hcovers⟩

theorem foundUnder_of_stable (hstable : canonicalizeMintUrl (canonicalizeMintUrl mint) =
      canonicalizeMintUrl mint) (hother : canonicalizeMintUrl other = canonicalizeMintUrl mint)
    (hsome : proofs ≠ []) : FoundUnder held tokenEvent mint other proofs := by
  have hpart := List.sublist_append_right held (attach tokenEvent mint proofs)
  have hatMint : (attach tokenEvent mint proofs).Sublist
      (atMint (held ++ attach tokenEvent mint proofs) other) :=
    attach_sublist_filter (p := fun m => m = canonicalizeMintUrl other) hpart hstable
      (by simp [hother])
  constructor
  · exact fun amount hamount hword => selected_of_stable hatMint hamount hword
  · refine ⟨atMint (held ++ attach tokenEvent mint proofs) other, ?_, fun s hs =>
      hatMint.subset hs⟩
    apply List.mem_map.mpr
    refine ⟨canonicalizeMintUrl other, ?_, rfl⟩
    obtain ⟨p, hp⟩ := List.exists_mem_of_ne_nil proofs hsome
    rw [List.mem_dedup]
    apply List.mem_map.mpr
    refine ⟨⟨tokenEvent, canonicalizeMintUrl mint, p⟩, ?_, hstable.trans hother.symm⟩
    exact List.mem_append_right _ (List.mem_map.mpr ⟨p, hp, rfl⟩)
  · intro exclude minAmount hmin hne hvalue hword
    have heligible : (attach tokenEvent mint proofs).Sublist
        (eligibleSources (held ++ attach tokenEvent mint proofs) exclude) :=
      attach_sublist_filter (p := fun m => m ≠ canonicalizeMintUrl exclude ∧
        isKnownValuelessMint m = false) hpart hstable (by simp [← hother, hne, hvalue])
    exact source_of_stable (attach_sublist_filter (p := fun m => m = canonicalizeMintUrl other)
      heligible hstable (by simp [hother])) hsome hmin hword
  · intro minAmount candidate hcandidate s hs heq
    obtain ⟨⟨source, hsource, hmint⟩, -, -⟩ := mem_candidates.mp hcandidate
    have hne := (List.mem_filter.mp hsource).2
    simp only [decide_eq_true_eq] at hne
    rw [hmint, heq, mint_of_mem_attach hs, hstable, hother] at hne
    exact hne.1 rfl

end

/-- Added proofs are found under every equivalent string exactly when the mint settles at once, which
is when its canonical form is stable. -/
theorem mint_identity_iff (mint : String) :
    ((∀ (held : List StoredProof) (tokenEvent : Option String) (proofs : List Proof) (other : String),
        proofs ≠ [] → canonicalizeMintUrl other = canonicalizeMintUrl mint →
        FoundUnder held tokenEvent mint other proofs) ↔ SettlesAtOnce mint) ∧
      (canonicalizeMintUrl (canonicalizeMintUrl mint) = canonicalizeMintUrl mint ↔
        SettlesAtOnce mint) := by
  have hstable := canonicalize_idempotent_iff mint
  refine ⟨⟨fun hfound => ?_, fun hsettles held tokenEvent proofs other hsome hother => ?_⟩, hstable⟩
  · -- the group of one added proof bears the stored name
    obtain ⟨group, hgroup, -⟩ := (hfound [] none [⟨0, "", "", ""⟩] mint (by simp) rfl).grouped
    obtain ⟨name, hname, heq⟩ := List.mem_map.mp hgroup
    injection heq with hmint _
    obtain ⟨s, hs, hstored⟩ := List.mem_map.mp (List.mem_dedup.mp hname)
    apply hstable.mp
    calc canonicalizeMintUrl (canonicalizeMintUrl mint)
        = canonicalizeMintUrl s.mint := by rw [mint_of_mem_attach hs]
      _ = name := hstored
      _ = canonicalizeMintUrl mint := hmint
  · exact foundUnder_of_stable (hstable.mpr hsettles) hother hsome

/-- Proofs added under a string with two slashes at its end are filed under another mint. -/
theorem two_slashes_lost :
    ¬ FoundUnder [] none "https://mint.example//" "https://mint.example//" [⟨1, "00", "s", "02"⟩] ∧
      canonicalizeMintUrl (canonicalizeMintUrl "https://mint.example//") ≠
        canonicalizeMintUrl "https://mint.example//" := by
  refine ⟨fun hfound => ?_, by decide +kernel⟩
  have hnone : selectProofs ([] ++ attach none "https://mint.example//" [⟨1, "00", "s", "02"⟩])
      "https://mint.example//" 1 = none := by decide +kernel
  have hsome := hfound.selected 1 (by decide) (by decide +kernel)
  rw [hnone] at hsome
  cases hsome

end WalletMintIdentity
