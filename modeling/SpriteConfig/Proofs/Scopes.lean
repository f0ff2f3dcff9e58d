import SpriteConfig.Outline
/-!
# Outlines line by line

An outline can also be built while the lines are read. A structural line closes the scopes that are
indented as much as it or more, and opens its own; a scope that is closed becomes a tree of the one
around it. This loses no line and misplaces none: what is built is the outline.
-/
namespace SpriteConfig

/-- A heading with the trees right below it so far. -/
structure OpenScope where
  heading : Heading
  children : List Outline

def OpenScope.tree (s : OpenScope) : Outline := .node s.heading s.children

/-- The open scopes, the innermost one first, and the trees that stand in none of them. -/
structure Scopes where
  stack : List OpenScope
  trees : List Outline

namespace Scopes

def close : Scopes → Scopes
  | ⟨[], trees⟩ => ⟨[], trees⟩
  | ⟨[top], trees⟩ => ⟨[], trees ++ [top.tree]⟩
  | ⟨top :: outer :: rest, trees⟩ =>
    ⟨{ outer with children := outer.children ++ [top.tree] } :: rest, trees⟩

theorem length_close_lt (top : OpenScope) (rest : List OpenScope) (trees : List Outline) :
    (close ⟨top :: rest, trees⟩).stack.length < (top :: rest).length := by
  cases rest with
  | nil => exact Nat.zero_lt_one
  | cons outer rest => exact Nat.lt_succ_self _

/-- Closes the scopes that are indented by `level` or more. -/
def closeTo (level : Nat) : Scopes → Scopes
  | ⟨[], trees⟩ => ⟨[], trees⟩
  | ⟨top :: rest, trees⟩ =>
    if level ≤ top.heading.level then closeTo level (close ⟨top :: rest, trees⟩)
    else ⟨top :: rest, trees⟩
termination_by s => s.stack.length
decreasing_by exact length_close_lt top rest trees

def push (s : Scopes) (h : Heading) : Scopes :=
  let closed := s.closeTo h.level
  { closed with stack := ⟨h, []⟩ :: closed.stack }

/-- The trees of headings that are read one after the other. -/
def build (hs : List Heading) : List Outline := ((hs.foldl push ⟨[], []⟩).closeTo 0).trees

/-- What open scopes become when trees follow: each takes the ones at the start that are deeper. -/
def fill : List OpenScope → List Outline → List Outline
  | [], ts => ts
  | s :: stack, ts =>
    let isDeeper (t : Outline) : Bool := s.heading.level < t.heading.level
    fill stack (.node s.heading (s.children ++ ts.takeWhile isDeeper) :: ts.dropWhile isDeeper)

def Nested (s : Scopes) : Prop :=
  s.stack.Pairwise fun inner outer => outer.heading.level < inner.heading.level

/-- Whether trees that follow start with none that is deeper than `level`. -/
def Ends (level : Nat) (ts : List Outline) : Prop := ∀ t ∈ ts.head?, t.heading.level ≤ level

variable {s : Scopes} {ts : List Outline} {level : Nat}

theorem Ends.takeWhile_eq (h : Ends level ts) {n : Nat} (hn : level ≤ n) :
    (ts.takeWhile fun t => n < t.heading.level) = [] ∧
      (ts.dropWhile fun t => n < t.heading.level) = ts := by
  cases ts with
  | nil => exact ⟨rfl, rfl⟩
  | cons t ts =>
    have hlevel : ¬ n < t.heading.level := Nat.not_lt.mpr (Nat.le_trans (h t rfl) hn)
    simp [hlevel]

theorem fill_close {top : OpenScope} {rest : List OpenScope} {trees : List Outline}
    (hs : Nested ⟨top :: rest, trees⟩) (hts : Ends level ts) (htop : level ≤ top.heading.level) :
    (close ⟨top :: rest, trees⟩).Nested ∧
      (close ⟨top :: rest, trees⟩).trees ++ fill (close ⟨top :: rest, trees⟩).stack ts =
        trees ++ fill (top :: rest) ts := by
  obtain ⟨htake, hdrop⟩ := hts.takeWhile_eq htop
  obtain ⟨hinner, hrest⟩ := List.pairwise_cons.mp hs
  cases rest with
  | nil =>
    refine ⟨.nil, ?_⟩
    simp [close, fill, htake, hdrop, OpenScope.tree]
  | cons outer rest =>
    have hdeeper : outer.heading.level < top.heading.level := hinner outer List.mem_cons_self
    obtain ⟨houter, hrest⟩ := List.pairwise_cons.mp hrest
    refine ⟨List.pairwise_cons.mpr ⟨houter, hrest⟩, ?_⟩
    have hheading : ∀ cs, (Outline.node top.heading cs).heading = top.heading := fun _ => rfl
    simp [close, fill, htake, hdrop, OpenScope.tree, hheading, hdeeper]

theorem fill_closeTo (hs : s.Nested) (hts : Ends level ts) :
    (s.closeTo level).Nested ∧
      (∀ top ∈ (s.closeTo level).stack, top.heading.level < level) ∧
      (s.closeTo level).trees ++ fill (s.closeTo level).stack ts = s.trees ++ fill s.stack ts := by
  fun_induction closeTo level s with
  | case1 trees => exact ⟨hs, by simp, rfl⟩
  | case2 top rest trees hle ih =>
    obtain ⟨hclosed, heq⟩ := fill_close hs hts hle
    obtain ⟨hnested, hlevels, hfill⟩ := ih hclosed
    exact ⟨hnested, hlevels, hfill.trans heq⟩
  | case3 top rest trees hlt =>
    refine ⟨hs, ?_, rfl⟩
    have hinner := (List.pairwise_cons.mp hs).1
    intro t ht
    rcases List.mem_cons.mp ht with rfl | ht
    · exact Nat.not_le.mp hlt
    · exact Nat.lt_trans (hinner t ht) (Nat.not_le.mp hlt)

/-- What the scopes become is decided before a heading is read as it is after. -/
theorem fill_push (hs : s.Nested) (h : Heading) (hs' : List Heading) :
    (s.push h).Nested ∧
      (s.push h).trees ++ fill (s.push h).stack (Outline.ofHeadings hs') =
        s.trees ++ fill s.stack (Outline.ofHeadings (h :: hs')) := by
  have hends : Ends h.level (Outline.ofHeadings (h :: hs')) := by
    intro t ht
    obtain rfl := Option.some.inj ht
    exact Nat.le_refl _
  obtain ⟨hnested, hlevels, hfill⟩ := fill_closeTo hs hends
  exact ⟨List.pairwise_cons.mpr ⟨hlevels, hnested⟩, hfill⟩

theorem fill_foldl_push (hs : s.Nested) (headings : List Heading) :
    (headings.foldl push s).Nested ∧
      (headings.foldl push s).trees ++ fill (headings.foldl push s).stack [] =
        s.trees ++ fill s.stack (Outline.ofHeadings headings) := by
  induction headings generalizing s with
  | nil => exact ⟨hs, rfl⟩
  | cons h headings ih =>
    obtain ⟨hpushed, hfill⟩ := fill_push hs h headings
    obtain ⟨hnested, hrest⟩ := ih hpushed
    exact ⟨hnested, hrest.trans hfill⟩

/-- The trees that are built line by line are those of the outline. -/
theorem build_eq_ofHeadings (hs : List Heading) : build hs = Outline.ofHeadings hs := by
  have hnone : Nested ⟨[], []⟩ := .nil
  obtain ⟨hnested, hfold⟩ := fill_foldl_push hnone hs
  have hends : Ends 0 [] := by
    intro t ht
    cases ht
  obtain ⟨-, hlevels, hfill⟩ := fill_closeTo hnested hends
  have hempty : ((hs.foldl push ⟨[], []⟩).closeTo 0).stack = [] := by
    apply List.eq_nil_iff_forall_not_mem.mpr
    intro top htop
    exact Nat.not_lt_zero _ (hlevels top htop)
  have hall := hfill.trans hfold
  rw [hempty] at hall
  simpa [fill, build] using hall

end Scopes
end SpriteConfig
