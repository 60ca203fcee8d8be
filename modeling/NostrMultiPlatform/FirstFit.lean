import Mathlib.Data.List.Induction
import Mathlib.Data.List.Sort

/-!
# First-fit packing

Entries are placed one after another. An entry joins the first group that takes
it, or starts a new last group. What a packing keeps is proved from what one
placement keeps; entries of different classes never meet, and a packing of
sorted entries depends on their order only where alike entries do not commute.
-/
namespace FirstFit

section Packing
variable {ε γ : Type} (start : ε → γ) (fit : ε → γ → Option γ)

/-- One entry into the first group that takes it. -/
def place (e : ε) : List γ → List γ
  | [] => [start e]
  | g :: rest =>
    match fit e g with
    | some g' => g' :: rest
    | none => g :: place e rest

def pack (es : List ε) : List γ := es.foldl (fun groups e => place start fit e groups) []

@[simp] theorem pack_nil : pack start fit [] = [] := rfl

theorem pack_snoc (es : List ε) (e : ε) :
    pack start fit (es ++ [e]) = place start fit e (pack start fit es) := by
  simp [pack]

variable {start fit}

theorem place_cons_some {e : ε} {g g' : γ} {rest : List γ} (h : fit e g = some g') :
    place start fit e (g :: rest) = g' :: rest := by
  rw [place, h]

theorem place_cons_none {e : ε} {g : γ} {rest : List γ} (h : fit e g = none) :
    place start fit e (g :: rest) = g :: place start fit e rest := by
  rw [place, h]

/-- A placed entry starts a group, or is taken by one. -/
theorem mem_place {e : ε} {groups : List γ} {g : γ} (h : g ∈ place start fit e groups) :
    g = start e ∨ (∃ g' ∈ groups, fit e g' = some g) ∨ g ∈ groups := by
  induction groups with
  | nil => exact .inl (List.mem_singleton.mp h)
  | cons first _ ih =>
    cases hfit : fit e first with
    | some =>
      rw [place_cons_some hfit] at h
      rcases List.mem_cons.mp h with rfl | h
      · exact .inr (.inl ⟨first, List.mem_cons_self, hfit⟩)
      · exact .inr (.inr (List.mem_cons_of_mem _ h))
    | none =>
      rw [place_cons_none hfit] at h
      rcases List.mem_cons.mp h with rfl | h
      · exact .inr (.inr List.mem_cons_self)
      · rcases ih h with hstart | ⟨g', hg', htaken⟩ | hmem
        · exact .inl hstart
        · exact .inr (.inl ⟨g', List.mem_cons_of_mem _ hg', htaken⟩)
        · exact .inr (.inr (List.mem_cons_of_mem _ hmem))

/-- A property of single groups that starting and taking keep holds of every group. -/
theorem pack_forall {P : γ → Prop} {es : List ε} (hstart : ∀ e ∈ es, P (start e))
    (hfit : ∀ e ∈ es, ∀ g g', P g → fit e g = some g' → P g') : ∀ g ∈ pack start fit es, P g := by
  induction es using List.reverseRecOn with
  | nil => simp
  | append_singleton es e ih =>
    have hold : ∀ g ∈ pack start fit es, P g :=
      ih (fun e' he' => hstart e' (List.mem_append_left _ he'))
        fun e' he' => hfit e' (List.mem_append_left _ he')
    intro g hg
    rw [pack_snoc] at hg
    rcases mem_place hg with rfl | ⟨g', hg', htaken⟩ | hmem
    · exact hstart e (by simp)
    · exact hfit e (by simp) g' g (hold g' hg') htaken
    · exact hold g hmem

/-- A view of the groups that starting and taking respect is packed by the viewed operations. -/
theorem pack_map {δ : Type} {start' : ε → δ} {fit' : ε → δ → Option δ} (view : γ → δ)
    (hstart : ∀ e, view (start e) = start' e) (hfit : ∀ e g, (fit e g).map view = fit' e (view g))
    (es : List ε) : (pack start fit es).map view = pack start' fit' es := by
  have hplace : ∀ e groups, (place start fit e groups).map view =
      place start' fit' e (groups.map view) := by
    intro e groups
    induction groups with
    | nil => simp [place, hstart]
    | cons first _ ih =>
      cases htaken : fit e first with
      | some taken =>
        have hview : fit' e (view first) = some (view taken) := by rw [← hfit, htaken]; rfl
        rw [place_cons_some htaken, List.map_cons, List.map_cons, place_cons_some hview]
      | none =>
        have hview : fit' e (view first) = none := by rw [← hfit, htaken]; rfl
        rw [place_cons_none htaken, List.map_cons, List.map_cons, place_cons_none hview, ih]
  induction es using List.reverseRecOn with
  | nil => rfl
  | append_singleton _ _ ih => rw [pack_snoc, pack_snoc, hplace, ih]

end Packing

section Members
variable {ε γ : Type} (start : ε → γ) (fit : ε → γ → Option γ)

/-- The packing with the entries that each group holds. -/
def packMembers (es : List ε) : List (γ × List ε) :=
  pack (fun e => (start e, [e])) (fun e g => (fit e g.1).map fun g' => (g', g.2 ++ [e])) es

variable {start fit}

theorem packMembers_fst (es : List ε) : (packMembers start fit es).map Prod.fst = pack start fit es :=
  pack_map Prod.fst (fun _ => rfl) (fun e g => by cases fit e g.1 <;> simp) es

variable (start fit) in
/-- Every entry is in one group. -/
theorem packMembers_perm (es : List ε) : ((packMembers start fit es).flatMap Prod.snd).Perm es := by
  have hplace : ∀ e (groups : List (γ × List ε)),
      ((place (fun e => (start e, [e])) (fun e g => (fit e g.1).map fun g' => (g', g.2 ++ [e])) e
        groups).flatMap Prod.snd).Perm (groups.flatMap Prod.snd ++ [e]) := by
    intro e groups
    induction groups with
    | nil => simp [place]
    | cons first _ ih =>
      cases htaken : fit e first.1 with
      | some =>
        rw [place_cons_some (by rw [htaken]; rfl), List.flatMap_cons, List.flatMap_cons,
          List.append_assoc, List.append_assoc]
        exact List.perm_append_comm.append_left first.2
      | none =>
        rw [place_cons_none (by rw [htaken]; rfl), List.flatMap_cons, List.flatMap_cons,
          List.append_assoc]
        exact ih.append_left first.2
  induction es using List.reverseRecOn with
  | nil => exact .refl _
  | append_singleton _ e ih =>
    rw [packMembers, pack_snoc]
    exact (hplace e _).trans (ih.append_right [e])

/-- A property of groups and their entries that starting and taking keep holds of every group. -/
theorem packMembers_forall {P : γ → List ε → Prop} {es : List ε}
    (hstart : ∀ e ∈ es, P (start e) [e])
    (hfit : ∀ e ∈ es, ∀ g ms g', P g ms → fit e g = some g' → P g' (ms ++ [e])) :
    ∀ group ∈ packMembers start fit es, P group.1 group.2 := by
  refine pack_forall (P := fun group : γ × List ε => P group.1 group.2) hstart fun e he group group' h htaken => ?_
  obtain ⟨g', hg', rfl⟩ := Option.map_eq_some_iff.mp htaken
  exact hfit e he group.1 group.2 g' h hg'

variable (start fit) in
theorem mem_packMembers_of_mem {es : List ε} {e : ε} (h : e ∈ es) :
    ∃ group ∈ packMembers start fit es, e ∈ group.2 := by
  obtain ⟨group, hgroup, hmem⟩ :=
    List.mem_flatMap.mp ((packMembers_perm start fit es).symm.subset h)
  exact ⟨group, hgroup, hmem⟩

end Members

section Classes
variable {ε γ : Type} {start : ε → γ} {fit : ε → γ → Option γ} {p : ε → Bool} {q : γ → Bool}

/-- Groups take only entries of their own kind, so each kind is packed on its own. -/
theorem filter_pack (hstart : ∀ e, q (start e) = p e)
    (hfit : ∀ e g g', fit e g = some g' → q g = p e ∧ q g' = p e) (es : List ε) :
    (pack start fit es).filter q = pack start fit (es.filter p) := by
  have hplace : ∀ e groups, (place start fit e groups).filter q =
      if p e then place start fit e (groups.filter q) else groups.filter q := by
    intro e groups
    induction groups with
    | nil => cases hp : p e <;> simp [place, hstart, hp]
    | cons first _ ih =>
      cases htaken : fit e first with
      | some taken =>
        obtain ⟨hfirst, hnext⟩ := hfit e first taken htaken
        cases hp : p e with
        | true =>
          rw [place_cons_some htaken, List.filter_cons, List.filter_cons, hnext, hfirst, hp]
          simp [place_cons_some htaken]
        | false =>
          rw [place_cons_some htaken, List.filter_cons, List.filter_cons, hnext, hfirst, hp]
          simp
      | none =>
        rw [place_cons_none htaken, List.filter_cons, ih, List.filter_cons]
        cases hp : p e <;> cases hq : q first <;> simp [place_cons_none htaken]
  induction es using List.reverseRecOn with
  | nil => rfl
  | append_singleton _ e ih =>
    rw [pack_snoc, hplace, ih, List.filter_append]
    cases hp : p e with
    | true => simp [hp, pack_snoc]
    | false => simp [hp]

/-- Entries that no group takes and whose groups take nothing are packed one by one. -/
theorem pack_of_refused {es : List ε}
    (hfit : ∀ e ∈ es, ∀ e' ∈ es, fit e (start e') = none) : pack start fit es = es.map start := by
  have hplace : ∀ e (groups : List γ), (∀ g ∈ groups, fit e g = none) →
      place start fit e groups = groups ++ [start e] := by
    intro e groups hrefused
    induction groups with
    | nil => rfl
    | cons first _ ih =>
      rw [place_cons_none (hrefused first List.mem_cons_self),
        ih fun g hg => hrefused g (List.mem_cons_of_mem _ hg), List.cons_append]
  induction es using List.reverseRecOn with
  | nil => rfl
  | append_singleton _ e ih =>
    rw [pack_snoc, ih fun e' he' e'' he'' =>
      hfit e' (List.mem_append_left _ he') e'' (List.mem_append_left _ he'')]
    rw [hplace, List.map_append, List.map_singleton]
    intro g hg
    obtain ⟨e', he', rfl⟩ := List.mem_map.mp hg
    exact hfit e (by simp) e' (List.mem_append_left _ he')

end Classes

section Order
variable {ε γ κ : Type} [LinearOrder κ] {start : ε → γ} {fit : ε → γ → Option γ} {key : ε → κ}

/-- Two entries are taken by the same groups, in either order with the same result. -/
structure Alike (start : ε → γ) (fit : ε → γ → Option γ) (e f : ε) : Prop where
  refused : ∀ g, fit e g = none ↔ fit f g = none
  both : ∀ g ge gf, fit e g = some ge → fit f g = some gf → ∃ h, fit f ge = some h ∧ fit e gf = some h
  started : ∃ h, fit f (start e) = some h ∧ fit e (start f) = some h

theorem Alike.place_comm {e f : ε} (h : Alike start fit e f) (groups : List γ) :
    place start fit f (place start fit e groups) = place start fit e (place start fit f groups) := by
  induction groups with
  | nil =>
    obtain ⟨both, hf, he⟩ := h.started
    simp [place, hf, he]
  | cons first _ ih =>
    cases he : fit e first with
    | none =>
      have hf : fit f first = none := (h.refused first).mp he
      rw [place_cons_none he, place_cons_none hf, place_cons_none hf, place_cons_none he, ih]
    | some ge =>
      obtain ⟨gf, hf⟩ := Option.ne_none_iff_exists'.mp fun hnone =>
        Option.some_ne_none ge (he.symm.trans ((h.refused first).mpr hnone))
      obtain ⟨both, hef, hfe⟩ := h.both first ge gf he hf
      rw [place_cons_some he, place_cons_some hf, place_cons_some hef, place_cons_some hfe]

/-- A fold over sorted entries depends on their order only where entries of one key do not
commute. -/
theorem foldl_eq_of_sorted_perm {σ : Type} {f : σ → ε → σ} {l₁ l₂ : List ε} (hperm : l₁.Perm l₂)
    (h₁ : l₁.Pairwise fun a b => key a ≤ key b) (h₂ : l₂.Pairwise fun a b => key a ≤ key b)
    (hcomm : ∀ a ∈ l₁, ∀ b ∈ l₁, key a = key b → ∀ s, f (f s a) b = f (f s b) a) (s : σ) :
    l₁.foldl f s = l₂.foldl f s := by
  induction l₁ generalizing l₂ s with
  | nil => rw [List.nil_perm.mp hperm]
  | cons x rest ih =>
    obtain ⟨hx, hrest⟩ := List.pairwise_cons.mp h₁
    obtain ⟨u, v, rfl⟩ := List.append_of_mem (hperm.subset List.mem_cons_self)
    have hkey : ∀ y ∈ u, y ∈ x :: rest ∧ key y = key x := by
      intro y hy
      have hmem : y ∈ x :: rest := hperm.symm.subset (List.mem_append_left _ hy)
      refine ⟨hmem, le_antisymm ((List.pairwise_append.mp h₂).2.2 y hy x List.mem_cons_self) ?_⟩
      rcases List.mem_cons.mp hmem with rfl | hmem
      · exact le_refl _
      · exact hx y hmem
    have hfront : ∀ (u : List ε) (s : σ), (∀ y ∈ u, y ∈ x :: rest ∧ key y = key x) →
        (u ++ x :: v).foldl f s = (u ++ v).foldl f (f s x) := by
      intro u
      induction u with
      | nil => exact fun s _ => rfl
      | cons y u ihu =>
        intro s hu
        obtain ⟨hy, hkeyy⟩ := hu y List.mem_cons_self
        rw [List.cons_append, List.foldl_cons, ihu _ fun z hz => hu z (List.mem_cons_of_mem _ hz),
          hcomm y hy x List.mem_cons_self hkeyy, List.cons_append, List.foldl_cons]
    rw [List.foldl_cons, hfront u s hkey]
    refine ih ?_ hrest ?_ (fun a ha b hb => hcomm a (List.mem_cons_of_mem _ ha) b
      (List.mem_cons_of_mem _ hb)) _
    · exact (List.perm_cons x).mp (hperm.trans List.perm_middle)
    · exact h₂.sublist ((List.sublist_cons_self x v).append_left u)

variable (start fit key) in
/-- Packings of sorted entries agree if entries of one key are alike. -/
theorem pack_eq_of_sorted_perm {l₁ l₂ : List ε} (hperm : l₁.Perm l₂)
    (h₁ : l₁.Pairwise fun a b => key a ≤ key b) (h₂ : l₂.Pairwise fun a b => key a ≤ key b)
    (halike : ∀ a ∈ l₁, ∀ b ∈ l₁, key a = key b → Alike start fit a b) :
    pack start fit l₁ = pack start fit l₂ :=
  foldl_eq_of_sorted_perm hperm h₁ h₂
    (fun a ha b hb hkey groups => (halike a ha b hb hkey).place_comm groups) []

variable (key) in
/-- A relation between an earlier and a later group, given by the entry that started the later one:
it holds when that entry is refused and starts its group, and taking later entries keeps it. -/
theorem pack_pairwise {R : ε → γ → γ → Prop} {es : List ε}
    (hstart : ∀ g e, fit e g = none → R e g (start e))
    (hleft : ∀ y e g g' h, key y ≤ key e → R y g h → fit e g = some g' → R y g' h)
    (hright : ∀ y e g h h', key y ≤ key e → R y g h → fit e h = some h' → R y g h')
    (hsorted : es.Pairwise fun a b => key a ≤ key b) :
    (pack start fit es).Pairwise fun g h => ∃ y ∈ es, R y g h := by
  induction es using List.reverseRecOn with
  | nil => exact .nil
  | append_singleton es e ih =>
    obtain ⟨hfirst, -, hlast⟩ := List.pairwise_append.mp hsorted
    have hle : ∀ y ∈ es, key y ≤ key e := fun y hy => hlast y hy e (by simp)
    have hlater : ∀ g h, (∃ y ∈ es, R y g h) → ∃ y ∈ es ++ [e], R y g h :=
      fun g h ⟨y, hy, hR⟩ => ⟨y, List.mem_append_left _ hy, hR⟩
    have hplace : ∀ groups : List γ, (groups.Pairwise fun g h => ∃ y ∈ es, R y g h) →
        (place start fit e groups).Pairwise fun g h => ∃ y ∈ es ++ [e], R y g h := by
      intro groups hpair
      induction groups with
      | nil => exact List.pairwise_singleton _ _
      | cons first _ ihg =>
        obtain ⟨hfirst, hrest⟩ := List.pairwise_cons.mp hpair
        cases htaken : fit e first with
        | some taken =>
          rw [place_cons_some htaken]
          refine List.pairwise_cons.mpr ⟨fun g hg => ?_, hrest.imp (hlater _ _)⟩
          obtain ⟨y, hy, hR⟩ := hfirst g hg
          exact ⟨y, List.mem_append_left _ hy, hleft y e first taken g (hle y hy) hR htaken⟩
        | none =>
          rw [place_cons_none htaken]
          refine List.pairwise_cons.mpr ⟨fun g hg => ?_, ihg hrest⟩
          rcases mem_place hg with rfl | ⟨g', hg', hnext⟩ | hmem
          · exact ⟨e, by simp, hstart first e htaken⟩
          · obtain ⟨y, hy, hR⟩ := hfirst g' hg'
            exact ⟨y, List.mem_append_left _ hy, hright y e first g' g (hle y hy) hR hnext⟩
          · exact hlater _ _ (hfirst g hmem)
    rw [pack_snoc]
    exact hplace _ (ih hfirst)

end Order

end FirstFit
