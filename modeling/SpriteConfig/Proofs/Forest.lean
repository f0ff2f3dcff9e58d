import SpriteConfig.Proofs.Agreement
import SpriteConfig.Proofs.Scopes
/-!
# The forest of the structural lines

A line is structural if its first word is one of a few names. The outline of a document lists every
structural line once, in the order of the lines. Its trees are the forest of the indentation: the
parent of a line is the nearest structural line before it that is indented less, and a line without
any stands at the top.
-/
namespace SpriteConfig

def structuralNames : List Text :=
  ["path", "glob", "output", "description", "input", "sheet", "group"].map String.toList

/-- Whether a text consists of an indentation, a structural name and a rest that does not go on with
the name: neither a letter nor a hyphen comes next. -/
structure Text.Heads (t indent name rest : Text) : Prop where
  text_eq : t = indent ++ name ++ rest
  isIndentation : indent.IsIndentation
  mem_names : name ∈ structuralNames
  name_ends : ∀ c, rest.head? = some c → isNameChar c = false

/-- Whether line `n` is structural, after `level` spaces and tabs. -/
def StructuralAt (lines : List Line) (n level : Nat) : Prop :=
  ∃ l indent name rest, lines[n]? = some l ∧ l.text.Heads indent name rest ∧ indent.length = level

theorem SymbolKind.isSome_ofDefinition? (name : Text) :
    (ofDefinition? name).isSome = true ↔ name ∈ structuralNames := by
  have hnamed : ∀ s ∈ ["path", "glob", "output", "description", "input", "sheet", "group"],
      (ofDefinition? s.toList).isSome = true := by decide
  constructor
  · intro h
    rw [ofDefinition?] at h
    split at h
    · next hany =>
      obtain ⟨s, hs, heq⟩ := List.any_eq_true.mp hany
      rw [← of_decide_eq_true heq]
      exact List.mem_map_of_mem (List.mem_append_left ["input", "sheet", "group"] hs)
    · split at h
      · next hname => exact hname ▸ (by decide)
      · split at h
        · next hname => exact hname ▸ (by decide)
        · split at h
          · next hname => exact hname ▸ (by decide)
          · cases h
  · intro h
    obtain ⟨s, hs, rfl⟩ := List.mem_map.mp h
    exact hnamed s hs

theorem isIndent_of_isNameChar {c : Char} (h : isNameChar c = true) : Text.isIndent c = false := by
  by_contra hc
  simp only [Text.isIndent, Bool.not_eq_false, Bool.or_eq_true, decide_eq_true_eq] at hc
  rcases hc with rfl | rfl <;> revert h <;> decide

namespace Text.Heads

variable {t indent name rest : Text}

theorem isNameChar_name (h : t.Heads indent name rest) : ∀ c ∈ name, isNameChar c = true := by
  have hall : structuralNames.all (·.all isNameChar) = true := by rfl
  exact List.all_eq_true.mp (List.all_eq_true.mp hall name h.mem_names)

theorem head_not_isIndent (h : t.Heads indent name rest) :
    ∀ c, (name ++ rest).head? = some c → isIndent c = false := by
  intro c hc
  apply isIndent_of_isNameChar
  apply h.isNameChar_name
  cases name with
  | nil => exact absurd h.mem_names (by decide)
  | cons a name => simp_all

theorem takeWhile_eq (h : t.Heads indent name rest) : t.takeWhile isIndent = indent := by
  rw [h.text_eq, List.append_assoc, takeWhile_isIndent h.isIndentation h.head_not_isIndent]

theorem dropWhile_eq (h : t.Heads indent name rest) : t.dropWhile isIndent = name ++ rest := by
  rw [h.text_eq, List.append_assoc, dropWhile_isIndent h.isIndentation h.head_not_isIndent]

theorem takeWhile_name (h : t.Heads indent name rest) :
    (name ++ rest).takeWhile isNameChar = name := by
  rw [List.takeWhile_append_of_pos h.isNameChar_name]
  cases rest with
  | nil => simp
  | cons c rest => simp [h.name_ends c rfl]

theorem dropWhile_name (h : t.Heads indent name rest) :
    (name ++ rest).dropWhile isNameChar = rest := by
  rw [List.dropWhile_append_of_pos h.isNameChar_name]
  cases rest with
  | nil => rfl
  | cons c rest => simp [h.name_ends c rfl]

end Text.Heads

theorem Heading.ofText?_eq_some_iff {n : Nat} {t : Text} {h : Heading} :
    ofText? n t = some h ↔
      '\n' ∉ t ∧ h.line = n ∧ SymbolKind.ofDefinition? h.name = some h.kind ∧
        ∃ indent rest, t.Heads indent h.name rest ∧ h.level = indent.length ∧
          h.detail = rest.dropWhile Text.isIndent := by
  simp only [ofText?, List.contains_iff_mem]
  constructor
  · intro hread
    split at hread
    · cases hread
    · next hlf =>
      obtain ⟨kind, hkind, rfl⟩ := Option.map_eq_some_iff.mp hread
      refine ⟨hlf, rfl, hkind, _, (t.dropWhile Text.isIndent).dropWhile isNameChar, ?_, rfl, rfl⟩
      refine ⟨?_, ?_, ?_, ?_⟩
      · rw [List.append_assoc, List.takeWhile_append_dropWhile, List.takeWhile_append_dropWhile]
      · exact Text.isIndentation_takeWhile t
      · apply (SymbolKind.isSome_ofDefinition? _).mp
        simp [hkind]
      · intro c hc
        have hhead := List.head?_dropWhile_not isNameChar (t.dropWhile Text.isIndent)
        simpa [hc] using hhead
  · rintro ⟨hlf, hline, hkind, indent, rest, hheads, hlevel, hdetail⟩
    rw [if_neg hlf, hheads.dropWhile_eq, hheads.takeWhile_name, hheads.dropWhile_name,
      hheads.takeWhile_eq, hkind, Option.map_some, ← hline, ← hlevel, ← hdetail]

section Headings

variable {n : Nat} {ls : List Line}

theorem mem_headingsFrom_iff {h : Heading} :
    h ∈ headingsFrom n ls ↔ ∃ i l, ls[i]? = some l ∧ Heading.ofText? (n + i) l.text = some h := by
  induction ls generalizing n with
  | nil => simp [headingsFrom]
  | cons l ls ih =>
    rw [headingsFrom, List.mem_append, Option.mem_toList, ih]
    constructor
    · rintro (hfirst | ⟨i, m, hm, hread⟩)
      · exact ⟨0, l, rfl, hfirst⟩
      · exact ⟨i + 1, m, hm, by rwa [Nat.add_right_comm] at hread⟩
    · rintro ⟨i, m, hm, hread⟩
      cases i with
      | zero => exact .inl (Option.some.inj hm ▸ hread)
      | succ i => exact .inr ⟨i, m, hm, by rwa [Nat.add_right_comm]⟩

theorem pairwise_headingsFrom (n : Nat) (ls : List Line) :
    (headingsFrom n ls).Pairwise fun g h => g.line < h.line := by
  induction ls generalizing n with
  | nil => exact .nil
  | cons l ls ih =>
    rw [headingsFrom, List.pairwise_append]
    refine ⟨?_, ih (n + 1), ?_⟩
    · cases Heading.ofText? n l.text <;> simp
    · intro g hg h hh
      obtain ⟨i, m, -, hread⟩ := mem_headingsFrom_iff.mp hh
      rw [(Heading.ofText?_eq_some_iff.mp (Option.mem_toList.mp hg)).2.1,
        (Heading.ofText?_eq_some_iff.mp hread).2.1]
      omega

/-- The headings of lines without line feeds are the structural ones among them, under their
names. -/
theorem exists_heading_named_iff (hlf : ∀ l ∈ ls, '\n' ∉ l.text) (n level : Nat) (name : Text) :
    (∃ h ∈ headingsFrom 0 ls, h.line = n ∧ h.level = level ∧ h.name = name) ↔
      ∃ l indent rest, ls[n]? = some l ∧ l.text.Heads indent name rest ∧ indent.length = level := by
  constructor
  · rintro ⟨h, hh, rfl, rfl, rfl⟩
    obtain ⟨i, l, hl, hread⟩ := mem_headingsFrom_iff.mp hh
    obtain ⟨-, hline, -, indent, rest, hheads, hlevel, -⟩ := Heading.ofText?_eq_some_iff.mp hread
    rw [Nat.zero_add] at hline
    exact ⟨l, indent, rest, hline ▸ hl, hheads, hlevel.symm⟩
  · rintro ⟨l, indent, rest, hl, hheads, rfl⟩
    obtain ⟨kind, hkind⟩ := Option.isSome_iff_exists.mp
      ((SymbolKind.isSome_ofDefinition? name).mpr hheads.mem_names)
    refine ⟨⟨name, rest.dropWhile Text.isIndent, kind, n, indent.length⟩, ?_, rfl, rfl, rfl⟩
    apply mem_headingsFrom_iff.mpr
    refine ⟨n, l, hl, ?_⟩
    apply Heading.ofText?_eq_some_iff.mpr
    exact ⟨hlf l (List.mem_of_getElem? hl), (Nat.zero_add n).symm, hkind, indent, rest, hheads, rfl,
      rfl⟩

theorem exists_heading_iff (hlf : ∀ l ∈ ls, '\n' ∉ l.text) (n level : Nat) :
    (∃ h ∈ headingsFrom 0 ls, h.line = n ∧ h.level = level) ↔ StructuralAt ls n level := by
  constructor
  · rintro ⟨h, hh, hline, hlevel⟩
    obtain ⟨l, indent, rest, hread⟩ :=
      (exists_heading_named_iff hlf n level h.name).mp ⟨h, hh, hline, hlevel, rfl⟩
    exact ⟨l, indent, h.name, rest, hread⟩
  · rintro ⟨l, indent, name, rest, hread⟩
    obtain ⟨h, hh, hline, hlevel, -⟩ :=
      (exists_heading_named_iff hlf n level name).mpr ⟨l, indent, rest, hread⟩
    exact ⟨h, hh, hline, hlevel⟩

end Headings

/-- Whether a heading comes before another one and is indented less. -/
def Heading.IsOuter (g h : Heading) : Prop := g.line < h.line ∧ g.level < h.level

/-- Whether a heading is one of `hs`, and none of them is an outer one of it. -/
def Heading.IsTop (hs : List Heading) (h : Heading) : Prop := h ∈ hs ∧ ∀ k ∈ hs, ¬ k.IsOuter h

/-- Whether `g` is the nearest of the outer headings of `h` among `hs`. -/
structure Heading.IsNearest (hs : List Heading) (g h : Heading) : Prop where
  left_mem : g ∈ hs
  right_mem : h ∈ hs
  isOuter : g.IsOuter h
  nearest : ∀ k ∈ hs, g.line < k.line → ¬ k.IsOuter h

instance (g h : Heading) : Decidable (g.IsOuter h) := inferInstanceAs (Decidable (_ ∧ _))

instance (hs : List Heading) (h : Heading) : Decidable (h.IsTop hs) :=
  inferInstanceAs (Decidable (_ ∧ _))

instance (hs : List Heading) (g h : Heading) : Decidable (g.IsNearest hs h) :=
  decidable_of_iff
    (g ∈ hs ∧ h ∈ hs ∧ g.IsOuter h ∧ ∀ k ∈ hs, g.line < k.line → ¬ k.IsOuter h)
    ⟨fun h => ⟨h.1, h.2.1, h.2.2.1, h.2.2.2⟩, fun h => ⟨h.1, h.2, h.3, h.4⟩⟩

section First

variable {hs : List Heading} {h g k : Heading}

theorem Heading.isTop_cons_iff (hfirst : ∀ k ∈ hs, h.line < k.line) :
    IsTop (h :: hs) k ↔ k = h ∨ IsTop hs k ∧ ¬ h.level < k.level := by
  constructor
  · rintro ⟨hk, htop⟩
    rcases List.mem_cons.mp hk with rfl | hk
    · exact .inl rfl
    · refine .inr ⟨⟨hk, fun m hm => htop m (List.mem_cons_of_mem _ hm)⟩, fun hlevel => ?_⟩
      exact htop h List.mem_cons_self ⟨hfirst k hk, hlevel⟩
  · rintro (rfl | ⟨⟨hk, htop⟩, hlevel⟩)
    · refine ⟨List.mem_cons_self, fun m hm houter => ?_⟩
      rcases List.mem_cons.mp hm with rfl | hm
      · exact Nat.lt_irrefl _ houter.1
      · exact Nat.lt_asymm (hfirst m hm) houter.1
    · refine ⟨List.mem_cons_of_mem _ hk, fun m hm houter => ?_⟩
      rcases List.mem_cons.mp hm with rfl | hm
      · exact hlevel houter.2
      · exact htop m hm houter

theorem Heading.isNearest_cons_iff (hfirst : ∀ k ∈ hs, h.line < k.line) :
    IsNearest (h :: hs) g k ↔ g = h ∧ IsTop hs k ∧ h.level < k.level ∨ IsNearest hs g k := by
  constructor
  · rintro ⟨hg, hk, houter, hnearest⟩
    have hrest : ∀ m ∈ hs, g.line < m.line → ¬ m.IsOuter k :=
      fun m hm => hnearest m (List.mem_cons_of_mem _ hm)
    have hk' : k ∈ hs := by
      rcases List.mem_cons.mp hk with rfl | hk
      · rcases List.mem_cons.mp hg with rfl | hg
        · exact absurd houter.1 (Nat.lt_irrefl _)
        · exact absurd houter.1 (Nat.lt_asymm (hfirst g hg))
      · exact hk
    rcases List.mem_cons.mp hg with rfl | hg
    · exact .inl ⟨rfl, ⟨hk', fun m hm => hrest m hm (hfirst m hm)⟩, houter.2⟩
    · exact .inr ⟨hg, hk', houter, hrest⟩
  · rintro (⟨rfl, ⟨hk, htop⟩, hlevel⟩ | ⟨hg, hk, houter, hnearest⟩)
    · refine ⟨List.mem_cons_self, List.mem_cons_of_mem _ hk, ⟨hfirst k hk, hlevel⟩, ?_⟩
      intro m hm hlt
      rcases List.mem_cons.mp hm with rfl | hm
      · exact absurd hlt (Nat.lt_irrefl _)
      · exact htop m hm
    · refine ⟨List.mem_cons_of_mem _ hg, List.mem_cons_of_mem _ hk, houter, ?_⟩
      intro m hm hlt
      rcases List.mem_cons.mp hm with rfl | hm
      · exact absurd hlt (Nat.lt_asymm (hfirst g hg))
      · exact hnearest m hm hlt

end First

section Prefix

variable {α : Type} {p : α → Bool} {as : List α}

theorem mem_takeWhile_iff (h : as.Pairwise fun a b => p b = true → p a = true) {a : α} :
    a ∈ as.takeWhile p ↔ a ∈ as ∧ p a = true := by
  induction as with
  | nil => simp
  | cons b as ih =>
    obtain ⟨hb, has⟩ := List.pairwise_cons.mp h
    by_cases hp : p b = true
    · simp only [List.takeWhile_cons_of_pos hp, List.mem_cons, ih has]
      grind
    · simp only [List.takeWhile_cons_of_neg hp, List.mem_cons]
      grind

theorem mem_dropWhile_iff (h : as.Pairwise fun a b => p b = true → p a = true) {a : α} :
    a ∈ as.dropWhile p ↔ a ∈ as ∧ ¬ p a = true := by
  induction as with
  | nil => simp
  | cons b as ih =>
    obtain ⟨hb, has⟩ := List.pairwise_cons.mp h
    by_cases hp : p b = true
    · simp only [List.dropWhile_cons_of_pos hp, List.mem_cons, ih has]
      grind
    · simp only [List.dropWhile_cons_of_neg hp, List.mem_cons]
      grind

end Prefix

namespace Outline

/-- Whether a tree is one of some trees or stands below one of them. -/
inductive Occurs (t : Outline) : List Outline → Prop
  | top {ts : List Outline} (ht : t ∈ ts) : Occurs t ts
  | inside {parent : Outline} {ts : List Outline} (hparent : parent ∈ ts)
    (ht : Occurs t parent.children) : Occurs t ts

/-- Whether a heading stands right below another one in some trees. -/
def HasChild (ts : List Outline) (g h : Heading) : Prop :=
  ∃ cs, Occurs (node g cs) ts ∧ h ∈ cs.map heading

variable {t : Outline} {ts us : List Outline} {hs : List Heading} {h g k : Heading}

theorem Occurs.mono (ht : Occurs t ts) (hsub : ts ⊆ us) : Occurs t us := by
  cases ht with
  | top ht => exact .top (hsub ht)
  | inside hparent ht => exact .inside (hsub hparent) ht

theorem occurs_grow_iff :
    Occurs t (grow h ts) ↔
      t = node h (ts.takeWhile fun t => h.level < t.heading.level) ∨ Occurs t ts := by
  have hsplit := List.takeWhile_append_dropWhile
    (p := fun t : Outline => decide (h.level < t.heading.level)) (l := ts)
  constructor
  · intro ht
    cases ht with
    | top ht =>
      rcases List.mem_cons.mp ht with rfl | ht
      · exact .inl rfl
      · exact .inr (.top ((List.dropWhile_suffix _).subset ht))
    | inside hparent ht =>
      rcases List.mem_cons.mp hparent with rfl | hparent
      · exact .inr (ht.mono (List.takeWhile_prefix _).subset)
      · exact .inr (.inside ((List.dropWhile_suffix _).subset hparent) ht)
  · rintro (rfl | ht)
    · exact .top List.mem_cons_self
    · rw [← hsplit] at ht
      have hnew : ∀ {s}, Occurs s (ts.takeWhile fun t => h.level < t.heading.level) →
          Occurs s (grow h ts) := fun hs => .inside List.mem_cons_self hs
      cases ht with
      | top ht =>
        rcases List.mem_append.mp ht with ht | ht
        · exact hnew (.top ht)
        · exact .top (List.mem_cons_of_mem _ ht)
      | inside hparent ht =>
        rcases List.mem_append.mp hparent with hparent | hparent
        · exact hnew (.inside hparent ht)
        · exact .inside (List.mem_cons_of_mem _ hparent) ht

theorem ofHeadings_cons (h : Heading) (hs : List Heading) :
    ofHeadings (h :: hs) = grow h (ofHeadings hs) := rfl

theorem preorderAll_ofHeadings (hs : List Heading) : preorderAll (ofHeadings hs) = hs := by
  induction hs with
  | nil => rfl
  | cons h hs ih => rw [ofHeadings_cons, preorderAll_grow, ih]

theorem heading_sublist_preorderAll (ts : List Outline) :
    (ts.map heading).Sublist (preorderAll ts) := by
  induction ts with
  | nil => exact .slnil
  | cons t ts ih =>
    cases t with
    | node h cs => exact .cons_cons h (ih.trans (List.sublist_append_right _ _))

theorem preorder_sublist (ht : t ∈ ts) : (preorder t).Sublist (preorderAll ts) := by
  obtain ⟨before, after, rfl⟩ := List.append_of_mem ht
  rw [preorderAll_append, preorderAll]
  exact (List.sublist_append_left _ _).trans (List.sublist_append_right _ _)

theorem children_sublist_preorder (t : Outline) :
    (preorderAll t.children).Sublist (preorder t) := by
  cases t with
  | node h cs => exact List.sublist_cons_self h _

theorem Occurs.preorderAll_sublist (ht : Occurs t ts) :
    (preorderAll t.children).Sublist (preorderAll ts) := by
  induction ht with
  | top ht => exact (children_sublist_preorder t).trans (preorder_sublist ht)
  | @inside parent ts hparent _ ih =>
    exact ih.trans ((children_sublist_preorder parent).trans (preorder_sublist hparent))

theorem Occurs.heading_sublist (ht : Occurs t ts) :
    (t.children.map heading).Sublist (preorderAll ts) :=
  (heading_sublist_preorderAll t.children).trans ht.preorderAll_sublist

theorem pairwise_deeper (hlines : hs.Pairwise fun g h => g.line < h.line)
    (htop : ∀ k, k ∈ (ofHeadings hs).map heading ↔ Heading.IsTop hs k) (h : Heading) :
    (ofHeadings hs).Pairwise fun t u => decide (h.level < u.heading.level) = true →
      decide (h.level < t.heading.level) = true := by
  have hsub := heading_sublist_preorderAll (ofHeadings hs)
  rw [preorderAll_ofHeadings] at hsub
  have horder := List.pairwise_map.mp (hlines.sublist hsub)
  apply horder.imp_of_mem
  intro t u ht hu hlt hdeeper
  have hfree := ((htop _).mp (List.mem_map_of_mem hu)).2 _
    ((htop _).mp (List.mem_map_of_mem ht)).1
  simp only [Heading.IsOuter, hlt, true_and, Nat.not_lt] at hfree
  simp only [decide_eq_true_eq] at hdeeper ⊢
  exact Nat.lt_of_lt_of_le hdeeper hfree

/-- The trees of headings put every one below the nearest outer one, or at the top. -/
theorem ofHeadings_forest (hlines : hs.Pairwise fun g h => g.line < h.line) :
    (∀ k, k ∈ (ofHeadings hs).map heading ↔ Heading.IsTop hs k) ∧
      ∀ g k, HasChild (ofHeadings hs) g k ↔ Heading.IsNearest hs g k := by
  induction hs with
  | nil =>
    refine ⟨fun k => by simp [ofHeadings, Heading.IsTop], fun g k => ⟨?_, fun hk => ?_⟩⟩
    · rintro ⟨cs, hcs, -⟩
      cases hcs with
      | top ht => cases ht
      | inside hparent ht => cases hparent
    · cases hk.left_mem
  | cons h hs ih =>
    obtain ⟨hfirst, hrest⟩ := List.pairwise_cons.mp hlines
    obtain ⟨htop, hchild⟩ := ih hrest
    have hdeeper := pairwise_deeper hrest htop h
    have htake : ∀ k,
        k ∈ ((ofHeadings hs).takeWhile fun t => h.level < t.heading.level).map heading ↔
          Heading.IsTop hs k ∧ h.level < k.level := by
      intro k
      rw [← htop, List.mem_map, List.mem_map]
      simp only [mem_takeWhile_iff hdeeper, decide_eq_true_eq]
      grind
    have hdrop : ∀ k,
        k ∈ ((ofHeadings hs).dropWhile fun t => h.level < t.heading.level).map heading ↔
          Heading.IsTop hs k ∧ ¬ h.level < k.level := by
      intro k
      rw [← htop, List.mem_map, List.mem_map]
      simp only [mem_dropWhile_iff hdeeper, decide_eq_true_eq]
      grind
    refine ⟨fun k => ?_, fun g k => ?_⟩
    · rw [Heading.isTop_cons_iff hfirst, ← hdrop]
      exact List.mem_cons
    · rw [Heading.isNearest_cons_iff hfirst, ← hchild, ← htake]
      simp only [HasChild, ofHeadings_cons, occurs_grow_iff, node.injEq]
      grind

/-- The outline is the forest of the indentation. It lists every structural line once, in the order
of the lines; the parent of a line is the nearest structural line before it that is indented less,
the lines without any are at the top, and all children come in the order of their lines. Scopes that
are opened and closed line by line give the same trees. -/
theorem ofLines_forest (source : Text) :
    let lines := readSource source
    let trees := ofLines lines
    let listed := preorderAll trees
    (listed.Pairwise fun g h => g.line < h.line) ∧
      (∀ n level, (∃ h ∈ listed, h.line = n ∧ h.level = level) ↔ StructuralAt lines n level) ∧
      (∀ g h, HasChild trees g h ↔ Heading.IsNearest listed g h) ∧
      (∀ h, h ∈ trees.map heading ↔ Heading.IsTop listed h) ∧
      ((trees.map heading).Pairwise fun g h => g.line < h.line) ∧
      (∀ t, Occurs t trees → (t.children.map heading).Pairwise fun g h => g.line < h.line) ∧
      Scopes.build (headingsFrom 0 lines) = trees := by
  intro lines trees listed
  have hlisted : listed = headingsFrom 0 lines := preorderAll_ofHeadings _
  have hlines : listed.Pairwise fun g h => g.line < h.line :=
    hlisted ▸ pairwise_headingsFrom 0 lines
  obtain ⟨htop, hchild⟩ := ofHeadings_forest (pairwise_headingsFrom 0 lines)
  refine ⟨hlines, ?_, ?_, ?_, ?_, ?_, Scopes.build_eq_ofHeadings _⟩
  · rw [hlisted]
    exact exists_heading_iff fun l hl => (settled_of_mem_readSource hl).2
  · rw [hlisted]
    exact hchild
  · rw [hlisted]
    exact htop
  · exact hlines.sublist (heading_sublist_preorderAll trees)
  · intro t ht
    exact hlines.sublist ht.heading_sublist

/-- The third line is indented less than the second one and more than the first one, a level that
was not seen before. -/
theorem ofLines_forest_new_level :
    let source := "  sheet\n      input a\n    input b\ngroup\n output x".toList
    let trees := ofLines (readSource source)
    let sheet : Heading := ⟨"sheet".toList, [], .variable, 0, 2⟩
    let input : Heading := ⟨"input".toList, ['b'], .field, 2, 4⟩
    let group : Heading := ⟨"group".toList, [], .package, 3, 0⟩
    let output : Heading := ⟨"output".toList, ['x'], .function, 4, 1⟩
    HasChild trees sheet input ∧ HasChild trees group output ∧
      (∀ h, h ∈ trees.map heading → h = sheet ∨ h = group) ∧
      (trees.map heading).Pairwise fun g h => g.line < h.line := by
  intro source trees sheet input group output
  have hlisted : preorderAll trees =
      [sheet, ⟨"input".toList, ['a'], .field, 1, 6⟩, input, group, output] := by
    rw [show preorderAll trees = headingsFrom 0 (readSource source) from preorderAll_ofHeadings _]
    decide
  obtain ⟨-, -, hchild, htop, horder, -⟩ := ofLines_forest source
  have hnearest : ∀ g h, HasChild trees g h ↔ Heading.IsNearest (preorderAll trees) g h := hchild
  have htops : ∀ h, h ∈ trees.map heading ↔ Heading.IsTop (preorderAll trees) h := htop
  rw [hlisted] at hnearest htops
  refine ⟨(hnearest _ _).mpr (by decide), (hnearest _ _).mpr (by decide), ?_, horder⟩
  have hothers : ∀ h ∈ [sheet, ⟨"input".toList, ['a'], .field, 1, 6⟩, input, group, output],
      Heading.IsTop [sheet, ⟨"input".toList, ['a'], .field, 1, 6⟩, input, group, output] h →
        h = sheet ∨ h = group := by
    decide
  intro h hh
  have htop := (htops h).mp hh
  exact hothers h htop.1 htop

end Outline
end SpriteConfig
