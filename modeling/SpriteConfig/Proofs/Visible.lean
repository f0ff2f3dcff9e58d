import Mathlib.Data.List.Sort
import SpriteConfig.Proofs.Agreement
import SpriteConfig.Proofs.Enclosure
import SpriteConfig.Proofs.Valid
/-!
# Which lines a lookup sees

A direct lookup sees the definitions of a block that no definition of the block before them is
nested less deep than. A common lookup sees the definitions before a line that are nested less deep
than the line, and than which no definition in between is nested less deep. Of the lines that it
sees, a lookup finds the nearest one with the name: the first direct one, or the last common one.

So a subject inherits what stands around it less deep, but not everything that is direct in a block
around it.
-/
namespace SpriteConfig

section Lists

variable {nearer : Nat → Nat → Prop} {xs : List (Line × Nat)} {x : Line × Nat}

theorem sublist_directLines (least : Option Nat) (xs : List (Line × Nat)) :
    (directLines least xs).Sublist xs := by
  fun_induction directLines least xs with
  | case1 => exact List.Sublist.refl []
  | case2 least l i rest hl ih => exact ih.cons_cons _
  | case3 least l i rest hl ih => exact ih.cons _

theorem directLines_some (least : Nat) (xs : List (Line × Nat)) :
    directLines (some least) xs = commonLines (least + 1) xs := by
  induction xs generalizing least with
  | nil => rfl
  | cons x xs ih =>
    simp only [directLines, commonLines, Option.all_some, Nat.lt_succ_iff, ih]

theorem commonLines_zero (xs : List (Line × Nat)) : commonLines 0 xs = [] := by
  induction xs with
  | nil => rfl
  | cons x xs ih => simp [commonLines, ih]

theorem sublist_commonLines (below : Nat) (xs : List (Line × Nat)) :
    (commonLines below xs).Sublist xs := by
  cases below with
  | zero =>
    rw [commonLines_zero]
    exact List.nil_sublist xs
  | succ below =>
    rw [← directLines_some]
    exact sublist_directLines (some below) xs

/-- A line is seen if it is nested no deeper than `least` and than any nearer definition. -/
theorem mem_directLines_iff (hasymm : ∀ m n, nearer m n → ¬ nearer n m) {least : Option Nat}
    (hxs : xs.Pairwise fun x y => nearer x.2 y.2) :
    x ∈ directLines least xs ↔
      x ∈ xs ∧ x.1.isDefinition = true ∧ (∀ n, least = some n → x.1.level ≤ n) ∧
        ∀ y ∈ xs, nearer y.2 x.2 → y.1.isDefinition = true → x.1.level ≤ y.1.level := by
  induction xs generalizing least with
  | nil => simp [directLines]
  | cons a xs ih =>
    obtain ⟨hfirst, hrest⟩ := List.pairwise_cons.mp hxs
    have hhead : ∀ y ∈ a :: xs, ¬ nearer y.2 a.2 := by
      intro y hy hnear
      rcases List.mem_cons.mp hy with rfl | hy
      · exact hasymm _ _ hnear hnear
      · exact hasymm _ _ (hfirst y hy) hnear
    have hleast : least.all (a.1.level ≤ ·) = true ↔ ∀ n, least = some n → a.1.level ≤ n := by
      cases least <;> simp
    rw [directLines]
    split
    · next ha =>
      simp only [Bool.and_eq_true, hleast] at ha
      rw [List.mem_cons, ih hrest]
      constructor
      · intro h
        rcases h with rfl | ⟨hx, hd, hle, hout⟩
        · exact ⟨List.mem_cons_self, ha.1, ha.2, fun y hy hnear => absurd hnear (hhead y hy)⟩
        · have hxa : x.1.level ≤ a.1.level := hle a.1.level rfl
          refine ⟨List.mem_cons_of_mem a hx, hd, fun n hn => hxa.trans (ha.2 n hn), ?_⟩
          exact List.forall_mem_cons.mpr ⟨fun _ _ => hxa, hout⟩
      · rintro ⟨hx, hd, -, hout⟩
        obtain ⟨hout, hlater⟩ := List.forall_mem_cons.mp hout
        rcases List.mem_cons.mp hx with rfl | hx
        · exact .inl rfl
        · have hxa : x.1.level ≤ a.1.level := hout (hfirst x hx) ha.1
          exact .inr ⟨hx, hd, fun n hn => Option.some.inj hn ▸ hxa, hlater⟩
    · next ha =>
      simp only [Bool.and_eq_true, hleast, not_and, Classical.not_forall, Nat.not_le] at ha
      rw [ih hrest]
      constructor
      · rintro ⟨hx, hd, hle, hout⟩
        refine ⟨List.mem_cons_of_mem a hx, hd, hle, List.forall_mem_cons.mpr ⟨?_, hout⟩⟩
        intro _ had
        obtain ⟨n, hn, hlt⟩ := ha had
        exact (hle n hn).trans hlt.le
      · rintro ⟨hx, hd, hle, hout⟩
        rcases List.mem_cons.mp hx with rfl | hx
        · obtain ⟨n, hn, hlt⟩ := ha hd
          exact absurd (hle n hn) hlt.not_ge
        · exact ⟨hx, hd, hle, fun y hy => hout y (List.mem_cons_of_mem a hy)⟩

theorem mem_commonLines_iff (hasymm : ∀ m n, nearer m n → ¬ nearer n m) {below : Nat}
    (hxs : xs.Pairwise fun x y => nearer x.2 y.2) :
    x ∈ commonLines below xs ↔
      x ∈ xs ∧ x.1.isDefinition = true ∧ x.1.level < below ∧
        ∀ y ∈ xs, nearer y.2 x.2 → y.1.isDefinition = true → x.1.level ≤ y.1.level := by
  cases below with
  | zero => simp [commonLines_zero]
  | succ below =>
    rw [← directLines_some, mem_directLines_iff hasymm hxs]
    simp only [Option.some.injEq, forall_eq', Nat.lt_succ_iff]

theorem pairwise_zipIdx {α : Type} (as : List α) (start : Nat) :
    (as.zipIdx start).Pairwise fun x y => x.2 < y.2 := by
  rw [← List.pairwise_map (f := Prod.snd) (R := (· < ·)), List.zipIdx_map_snd]
  exact List.pairwise_lt_range'

/-- Whether numbered lines are the ones that `P` holds of, the nearest first. -/
structure Enumerates (nearer : Nat → Nat → Prop) (P : Nat → Line → Prop)
    (xs : List (Line × Nat)) : Prop where
  order : xs.Pairwise fun x y => nearer x.2 y.2
  mem_iff : ∀ l i, (l, i) ∈ xs ↔ P i l

variable {P P' : Nat → Line → Prop} {ys : List (Line × Nat)} {name : Text}

theorem Enumerates.findDefinition?_eq_some_iff (h : Enumerates nearer P xs)
    (hasymm : ∀ m n, nearer m n → ¬ nearer n m) {l : Line} {i : Nat} :
    findDefinition? name xs = some (l, i) ↔
      P i l ∧ l.definition = name ∧ ∀ j m, nearer j i → P j m → m.definition ≠ name := by
  obtain ⟨horder, hmem⟩ := h
  simp only [← hmem, findDefinition?, List.find?_eq_some_iff_append, decide_eq_true_eq]
  constructor
  · rintro ⟨hname, before, after, rfl, hnone⟩
    refine ⟨by simp, hname, fun j m hnear hm hmname => ?_⟩
    rcases List.mem_append.mp hm with hm | hm
    · simpa [hmname] using hnone _ hm
    · rcases List.mem_cons.mp hm with hm | hm
      · obtain ⟨rfl, rfl⟩ := Prod.mk.inj hm
        exact hasymm _ _ hnear hnear
      · have hafter := (List.pairwise_cons.mp (List.pairwise_append.mp horder).2.1).1 _ hm
        exact hasymm _ _ hnear hafter
  · rintro ⟨hin, hname, hnone⟩
    obtain ⟨before, after, rfl⟩ := List.append_of_mem hin
    refine ⟨hname, before, after, rfl, fun y hy => ?_⟩
    have hnear := (List.pairwise_append.mp horder).2.2 y hy (l, i) List.mem_cons_self
    simpa using hnone y.2 y.1 hnear (List.mem_append_left _ hy)

theorem Enumerates.findDefinition?_eq_none_iff (h : Enumerates nearer P xs) :
    findDefinition? name xs = none ↔ ∀ i l, P i l → l.definition ≠ name := by
  simp only [← h.mem_iff, findDefinition?, List.find?_eq_none, decide_eq_true_eq, Prod.forall]
  exact forall_comm

theorem Enumerates.eq_map (h : Enumerates nearer P xs) (h' : Enumerates nearer P' ys)
    (hasymm : ∀ m n, nearer m n → ¬ nearer n m) {σ : Nat → Nat}
    (hσ : ∀ {m n}, nearer m n → nearer (σ m) (σ n))
    (hP : ∀ i l, P' i l ↔ ∃ j, i = σ j ∧ P j l) : ys = xs.map fun x => (x.1, σ x.2) := by
  let r : Line × Nat → Line × Nat → Prop := fun x y => nearer x.2 y.2
  have hirrefl : Std.Irrefl r := ⟨fun x hx => hasymm _ _ hx hx⟩
  have hantisymm : Std.Antisymm r := ⟨fun x y hxy hyx => absurd hyx (hasymm _ _ hxy)⟩
  have horder : (xs.map fun x => (x.1, σ x.2)).Pairwise r :=
    List.pairwise_map.mpr (h.order.imp hσ)
  apply List.Pairwise.eq_of_mem_iff h'.order horder
  rintro ⟨l, i⟩
  simp only [h'.mem_iff, hP, List.mem_map, Prod.exists, Prod.mk.injEq, h.mem_iff]
  constructor
  · rintro ⟨j, rfl, hj⟩
    exact ⟨l, j, hj, rfl, rfl⟩
  · rintro ⟨_, j, hj, rfl, rfl⟩
    exact ⟨j, rfl, hj⟩

theorem Enumerates.findDefinition?_eq_map_of_found (h : Enumerates nearer P xs)
    (h' : Enumerates nearer P' ys) (hasymm : ∀ m n, nearer m n → ¬ nearer n m) {σ : Nat → Nat}
    (hσ : ∀ m n, nearer (σ m) (σ n) → nearer m n)
    (hold : ∀ i l, l.definition = name → P' i l → ∃ j, i = σ j ∧ P j l)
    (hfound : ∀ l j, findDefinition? name xs = some (l, j) → P' (σ j) l) :
    findDefinition? name ys = (findDefinition? name xs).map fun x => (x.1, σ x.2) := by
  cases hx : findDefinition? name xs with
  | none =>
    rw [h.findDefinition?_eq_none_iff] at hx
    apply h'.findDefinition?_eq_none_iff.mpr
    intro i l hl hname
    obtain ⟨j, -, hj⟩ := hold i l hname hl
    exact hx j l hj hname
  | some x =>
    obtain ⟨-, hname, hnone⟩ := (h.findDefinition?_eq_some_iff hasymm).mp hx
    apply (h'.findDefinition?_eq_some_iff hasymm).mpr
    refine ⟨hfound x.1 x.2 hx, hname, fun i l hnear hl hl' => ?_⟩
    obtain ⟨j, rfl, hj⟩ := hold i l hl' hl
    exact hnone j l (hσ _ _ hnear) hj hl'

theorem Enumerates.findDefinition?_eq_map (h : Enumerates nearer P xs) (h' : Enumerates nearer P' ys)
    (hasymm : ∀ m n, nearer m n → ¬ nearer n m) {σ : Nat → Nat}
    (hσ : ∀ m n, nearer (σ m) (σ n) → nearer m n)
    (hP : ∀ i l, l.definition = name → (P' i l ↔ ∃ j, i = σ j ∧ P j l)) :
    findDefinition? name ys = (findDefinition? name xs).map fun x => (x.1, σ x.2) := by
  apply h.findDefinition?_eq_map_of_found h' hasymm hσ fun i l hname => (hP i l hname).mp
  intro l j hfound
  obtain ⟨hl, hname, -⟩ := (h.findDefinition?_eq_some_iff hasymm).mp hfound
  exact (hP _ l hname).mpr ⟨j, rfl, hl⟩

end Lists

section Blocks

variable {α : Type} {p : α → Bool} {as : List α} {i : Nat}

theorem lt_length_dropTrailing_iff :
    i < (dropTrailing p as).length ↔ ∃ j a, i ≤ j ∧ as[j]? = some a ∧ p a = false := by
  induction as generalizing i with
  | nil => simp [dropTrailing]
  | cons a as ih =>
    have hcons : (∃ j b, i ≤ j ∧ (a :: as)[j]? = some b ∧ p b = false) ↔
        i = 0 ∧ p a = false ∨ ∃ j b, i - 1 ≤ j ∧ as[j]? = some b ∧ p b = false := by
      constructor
      · rintro ⟨j, b, hij, hb, hp⟩
        cases j with
        | zero =>
          obtain rfl : a = b := Option.some.inj hb
          exact .inl ⟨Nat.le_zero.mp hij, hp⟩
        | succ j => exact .inr ⟨j, b, by omega, hb, hp⟩
      · rintro (⟨rfl, hp⟩ | ⟨j, b, hij, hb, hp⟩)
        · exact ⟨0, a, Nat.le_refl 0, rfl, hp⟩
        · exact ⟨j + 1, b, by omega, hb, hp⟩
    rw [hcons, ← ih, dropTrailing]
    cases dropTrailing p as with
    | nil => cases hp : p a <;> simp
    | cons b bs =>
      simp only [List.length_cons]
      omega

theorem getElem?_takeWhile_iff {a : α} :
    (as.takeWhile p)[i]? = some a ↔
      as[i]? = some a ∧ ∀ j b, j ≤ i → as[j]? = some b → p b = true := by
  rw [List.takeWhile_eq_take_findIdx_not, List.getElem?_take]
  constructor
  · intro h
    split at h
    · next hlt =>
      refine ⟨h, fun j b hj hb => ?_⟩
      obtain ⟨_, rfl⟩ := List.getElem?_eq_some_iff.mp hb
      simpa using List.not_of_lt_findIdx (hj.trans_lt hlt)
    · cases h
  · rintro ⟨ha, hp⟩
    have hi := (List.getElem?_eq_some_iff.mp ha).1
    rw [if_pos, ha]
    refine (List.lt_findIdx_iff _ _ _).mpr ⟨hi, fun j hj => ?_⟩
    simpa using hp j as[j] hj (List.getElem?_eq_getElem _)

/-- A line is in a block if a line from it on is nested deeper, and no line up to that one closes
the block. -/
theorem lt_length_blockBelow_iff {level : Nat} {below : List Line} {i : Nat} :
    i < (blockBelow level below).length ↔
      ∃ j m, i ≤ j ∧ below[j]? = some m ∧ m.isNestedDeeper level = true ∧
        ∀ k a, k ≤ j → below[k]? = some a → a.closes level = false := by
  simp only [blockBelow, lt_length_dropTrailing_iff, getElem?_takeWhile_iff, Bool.not_eq_true',
    Bool.not_eq_false', and_assoc]
  constructor
  · rintro ⟨j, m, hij, hm, hopen, hnested⟩
    exact ⟨j, m, hij, hm, hnested, hopen⟩
  · rintro ⟨j, m, hij, hm, hnested, hopen⟩
    exact ⟨j, m, hij, hm, hopen, hnested⟩

theorem getElem?_blockBelow_iff {level : Nat} {below : List Line} {i : Nat} {l : Line}
    (hd : l.isDefinition = true) :
    (blockBelow level below)[i]? = some l ↔
      below[i]? = some l ∧ ∀ j m, j ≤ i → below[j]? = some m → m.closes level = false := by
  have hat : ∀ {i : Nat}, i < (blockBelow level below).length →
      below[i]? = (blockBelow level below)[i]? := by
    intro i hi
    obtain ⟨rest, hrest⟩ := prefix_blockBelow level below
    rw [← hrest, List.getElem?_append_left hi, hrest]
  constructor
  · intro hl
    have hi := (List.getElem?_eq_some_iff.mp hl).1
    obtain ⟨j, m, hij, -, -, hopen⟩ := lt_length_blockBelow_iff.mp hi
    exact ⟨(hat hi).trans hl, fun k a hk ha => hopen k a (hk.trans hij) ha⟩
  · rintro ⟨hl, hopen⟩
    have hnested : l.isNestedDeeper level = true := by simp [Line.isNestedDeeper, hd]
    have hi := lt_length_blockBelow_iff.mpr ⟨i, l, Nat.le_refl i, hl, hnested, hopen⟩
    exact (hat hi).symm.trans hl

end Blocks

/-- Line `i` comes after a handle, and no line up to it closes the block there. -/
structure InBlock (ls : List Line) (h : Handle) (i : Nat) : Prop where
  next_le : h.next ≤ i
  not_closes : ∀ n own, h = .line n → ls[n]? = some own →
    ∀ j m, n < j → j ≤ i → ls[j]? = some m → m.closes own.level = false

/-- Line `i` is a definition after a handle that is nested deeper, and no definition in between is
nested less deep than line `i`. -/
structure DirectLine (ls : List Line) (h : Handle) (i : Nat) (l : Line) : Prop where
  line_eq : ls[i]? = some l
  isDefinition : l.isDefinition = true
  next_le : h.next ≤ i
  deeper : ∀ n own, h = .line n → ls[n]? = some own → own.level < l.level
  outermost : ∀ j m, h.next ≤ j → j < i → ls[j]? = some m → m.isDefinition = true →
    l.level ≤ m.level

/-- Line `i` is a definition before line `n` that is nested less deep, and no definition in between
is nested less deep than line `i`. -/
structure CommonLine (ls : List Line) (n i : Nat) (l : Line) : Prop where
  line_eq : ls[i]? = some l
  isDefinition : l.isDefinition = true
  lt : i < n
  shallower : ∀ own, ls[n]? = some own → l.level < own.level
  outermost : ∀ j m, i < j → j < n → ls[j]? = some m → m.isDefinition = true →
    l.level ≤ m.level

theorem DirectLine.inBlock {ls : List Line} {h : Handle} {i : Nat} {l : Line}
    (hl : DirectLine ls h i l) : InBlock ls h i := by
  refine ⟨hl.next_le, ?_⟩
  rintro n own rfl hown j m hnj hji hm
  have hdeeper := hl.deeper n own rfl hown
  rw [Line.closes, Bool.and_eq_false_imp]
  intro hd
  rcases Nat.eq_or_lt_of_le hji with rfl | hlt
  · obtain rfl : l = m := Option.some.inj (hl.line_eq.symm.trans hm)
    simpa using hdeeper
  · simpa using hdeeper.trans_le (hl.outermost j m hnj hlt hm hd)

theorem InBlock.lt_level {ls : List Line} {n i : Nat} {l own : Line} (h : InBlock ls (.line n) i)
    (hown : ls[n]? = some own) (hl : ls[i]? = some l) (hd : l.isDefinition = true) :
    own.level < l.level := by
  have hopen := h.not_closes n own rfl hown i l h.next_le (Nat.le_refl i) hl
  simpa [Line.closes, hd] using hopen

namespace Document

variable {d d' : Document} {h h' : Handle} {name : Text}

theorem exists_block_iff (hh : h.Inside d) :
    ∃ start block, d.block h = .ok (start, block) ∧ start = h.next ∧
      ∀ l i, l.isDefinition = true →
        ((l, i) ∈ block.zipIdx start ↔ d.lines[i]? = some l ∧ InBlock d.lines h i) := by
  cases h with
  | root =>
    refine ⟨0, d.lines, rfl, rfl, fun l i _ => ?_⟩
    rw [List.mem_zipIdx_iff_le_and_getElem?_sub]
    constructor
    · rintro ⟨-, hl⟩
      exact ⟨hl, Nat.zero_le i, by simp⟩
    · rintro ⟨hl, -⟩
      exact ⟨Nat.zero_le i, hl⟩
  | line n =>
    have hlt := hh n rfl
    have hn := List.getElem?_eq_getElem hlt
    refine ⟨n + 1, _, block_eq hn, rfl, fun l i hd => ?_⟩
    rw [List.mem_zipIdx_iff_le_and_getElem?_sub, getElem?_blockBelow_iff hd, List.getElem?_drop]
    constructor
    · rintro ⟨hle, hl, hno⟩
      rw [Nat.add_sub_cancel' hle] at hl
      refine ⟨hl, hle, ?_⟩
      rintro _ own ⟨⟩ hown j m hnj hji hm
      obtain rfl : d.lines[n] = own := Option.some.inj (hn.symm.trans hown)
      apply hno (j - (n + 1)) m (by omega)
      rw [List.getElem?_drop, Nat.add_sub_cancel' hnj]
      exact hm
    · rintro ⟨hl, hin⟩
      have hle : n + 1 ≤ i := hin.next_le
      refine ⟨hle, by rwa [Nat.add_sub_cancel' hle], fun j m hj hm => ?_⟩
      rw [List.getElem?_drop] at hm
      exact hin.not_closes n _ rfl hn (n + 1 + j) m (by omega) (by omega) hm

theorem inBlock_of_mem_block (hh : h.Inside d) {start i : Nat} {block : List Line} {l : Line}
    (hblock : d.block h = .ok (start, block)) (hl : (l, i) ∈ block.zipIdx start)
    (hd : l.isDefinition = true) : InBlock d.lines h i := by
  obtain ⟨start', block', hblock', -, hmem⟩ := exists_block_iff hh
  rw [hblock, Except.ok.injEq, Prod.mk.injEq] at hblock'
  obtain ⟨rfl, rfl⟩ := hblock'
  exact ((hmem l i hd).mp hl).2

theorem exists_enumerates_direct (hh : h.Inside d) :
    ∃ xs, d.directAt h = .ok xs ∧ Enumerates (· < ·) (DirectLine d.lines h) xs := by
  obtain ⟨start, block, hblock, rfl, hmem⟩ := exists_block_iff hh
  have horder := pairwise_zipIdx block h.next
  refine ⟨directLines none (block.zipIdx h.next), by rw [directAt, hblock]; rfl,
    horder.sublist (sublist_directLines _ _), fun l i => ?_⟩
  have hasymm : ∀ m n : Nat, m < n → ¬ n < m := fun m n => Nat.lt_asymm
  rw [mem_directLines_iff hasymm horder]
  constructor
  · rintro ⟨hin, hd, -, hout⟩
    obtain ⟨hl, hblock⟩ := (hmem l i hd).mp hin
    refine ⟨hl, hd, hblock.next_le, ?_, fun j m hj hji hm hmd => ?_⟩
    · rintro n own rfl hown
      exact hblock.lt_level hown hl hd
    · apply hout (m, j) _ hji hmd
      refine (hmem m j hmd).mpr ⟨hm, hj, fun n own hn hown k m' hk hkj hm' => ?_⟩
      exact hblock.not_closes n own hn hown k m' hk (hkj.trans hji.le) hm'
  · intro hl
    refine ⟨(hmem l i hl.isDefinition).mpr ⟨hl.line_eq, hl.inBlock⟩, hl.isDefinition, by simp, ?_⟩
    intro y hy hlt hd
    obtain ⟨hm, hblock⟩ := (hmem y.1 y.2 hd).mp hy
    exact hl.outermost y.2 y.1 hblock.next_le hlt hm hd

theorem exists_enumerates_common {n : Nat} (hn : n < d.lines.length) :
    ∃ xs, d.commonAt (.line n) = .ok xs ∧ Enumerates (· > ·) (CommonLine d.lines n) xs := by
  have hown := List.getElem?_eq_getElem hn
  have horder : (d.lines.take n).zipIdx.reverse.Pairwise fun x y => y.2 < x.2 :=
    List.pairwise_reverse.mpr (pairwise_zipIdx _ 0)
  have hmem : ∀ l i, (l, i) ∈ (d.lines.take n).zipIdx.reverse ↔ d.lines[i]? = some l ∧ i < n := by
    intro l i
    rw [List.mem_reverse, List.mem_zipIdx_iff_le_and_getElem?_sub, List.getElem?_take]
    by_cases hi : i < n <;> simp [hi]
  refine ⟨commonLines d.lines[n].level _, by rw [commonAt, line_eq hown]; rfl,
    horder.sublist (sublist_commonLines _ _), fun l i => ?_⟩
  have hasymm : ∀ m n : Nat, m > n → ¬ n > m := fun m n => Nat.lt_asymm
  rw [mem_commonLines_iff hasymm horder, hmem]
  constructor
  · rintro ⟨⟨hl, hi⟩, hd, hlevel, hout⟩
    refine ⟨hl, hd, hi, fun own h => ?_, fun j m hij hjn hm hmd => ?_⟩
    · exact Option.some.inj (hown.symm.trans h) ▸ hlevel
    · exact hout (m, j) ((hmem m j).mpr ⟨hm, hjn⟩) hij hmd
  · intro hl
    refine ⟨⟨hl.line_eq, hl.lt⟩, hl.isDefinition, hl.shallower _ hown, fun y hy hlt hd => ?_⟩
    obtain ⟨hm, hyn⟩ := (hmem y.1 y.2).mp hy
    exact hl.outermost y.2 y.1 hlt hyn hm hd

theorem findDirect?_of_directAt {xs : List (Line × Nat)} (hxs : d.directAt h = .ok xs)
    (name : Text) : d.findDirect? h name = .ok (findDefinition? name xs) := by
  rw [findDirect?, hxs]
  rfl

theorem findCommon?_of_commonAt {xs : List (Line × Nat)} (hxs : d.commonAt h = .ok xs)
    (name : Text) : d.findCommon? h name = .ok (findDefinition? name xs) := by
  rw [findCommon?, hxs]
  rfl

/-- A direct lookup finds the first direct line with the name. -/
theorem findDirect?_eq_some_iff (hh : h.Inside d) {l : Line} {i : Nat} :
    d.findDirect? h name = .ok (some (l, i)) ↔
      DirectLine d.lines h i l ∧ l.definition = name ∧
        ∀ j m, j < i → DirectLine d.lines h j m → m.definition ≠ name := by
  obtain ⟨xs, hxs, henum⟩ := exists_enumerates_direct hh
  rw [findDirect?_of_directAt hxs, Except.ok.injEq]
  exact henum.findDefinition?_eq_some_iff fun m n => Nat.lt_asymm

theorem findCommon?_eq_some_iff {n : Nat} (hn : n < d.lines.length) {l : Line} {i : Nat} :
    d.findCommon? (.line n) name = .ok (some (l, i)) ↔
      CommonLine d.lines n i l ∧ l.definition = name ∧
        ∀ j m, i < j → CommonLine d.lines n j m → m.definition ≠ name := by
  obtain ⟨xs, hxs, henum⟩ := exists_enumerates_common hn
  rw [findCommon?_of_commonAt hxs, Except.ok.injEq]
  exact henum.findDefinition?_eq_some_iff fun m n => Nat.lt_asymm

theorem lt_length_of_handle?_parse {source : Text} {options : Options} {s : SubjectId} {n : Nat}
    (hs : (parse source options).registry.handle? s = some (.line n)) :
    n < (parse source options).lines.length := by
  obtain ⟨subject, hmem, -, hhandle⟩ := Registry.exists_of_handle? hs
  obtain ⟨own, hown, -⟩ := Registry.stands_ofLines (readSource source) subject hmem n hhandle
  exact (List.getElem?_eq_some_iff.mp hown).1

theorem hasCommon_eq_true_iff {s : SubjectId} {n : Nat}
    (hs : d.registry.handle? s = some (.line n)) (hn : n < d.lines.length) :
    d.hasCommon s name = .ok true ↔ ∃ q l, CommonLine d.lines n q l ∧ l.definition = name := by
  obtain ⟨xs, hxs, henum⟩ := exists_enumerates_common hn
  have hfound := findCommon?_of_commonAt hxs name
  rw [hasCommon, commonLine?, hs]
  dsimp only
  rw [hfound, Checked.ok_bind]
  cases hnearest : findDefinition? name xs with
  | none =>
    have hnone := henum.findDefinition?_eq_none_iff.mp hnearest
    refine iff_of_false (fun h => by cases h) ?_
    rintro ⟨q, l, hq, hname⟩
    exact hnone q l hq hname
  | some found =>
    have hasymm : ∀ m n : Nat, m > n → ¬ n > m := fun m n => Nat.lt_asymm
    obtain ⟨hq, hname, -⟩ := (henum.findDefinition?_eq_some_iff hasymm).mp hnearest
    exact iff_of_true rfl ⟨found.2, found.1, hq, hname⟩

theorem hasEffective_of_hasCommon {s : SubjectId} (hs : d.registry.handle? s = some h)
    (hh : h.Inside d) (hcommon : d.hasCommon s name = .ok true) :
    d.hasEffective s name = .ok true := by
  obtain ⟨direct, hdirect, -⟩ := exists_findDirect? hh name
  rw [hasEffective, hasDirect_of_handle? hs hdirect, Checked.ok_bind, hcommon]
  split <;> rfl

/-- The definitions that are nested less deep than a subject are inherited, as long as no definition
in between is nested less deep than they are. -/
theorem hasEffective_of_commonLine (source : Text) (options : Options) {s : SubjectId} {n q : Nat}
    {l : Line} (hs : (parse source options).registry.handle? s = some (.line n))
    (hq : CommonLine (parse source options).lines n q l) :
    (parse source options).hasEffective s l.definition = .ok true := by
  have hn := lt_length_of_handle?_parse hs
  apply hasEffective_of_hasCommon hs (Handle.inside_line hn)
  exact (hasCommon_eq_true_iff hs hn).mpr ⟨q, l, hq, rfl⟩

/-- A sprite inherits what stands beside its input. -/
theorem hasEffective_of_commonLine_beside_input :
    let d := parse "sheet\n  padding 2\n  input a\n    sprite".toList
    let l := Line.parse 0 "  padding 2".toList
    d.registry.handle? 2 = some (.line 3) ∧ CommonLine d.lines 3 1 l ∧
      d.hasEffective 2 l.definition = .ok true := by
  intro d l
  have hs : d.registry.handle? 2 = some (.line 3) := by decide
  have hfound : d.findCommon? (.line 3) "padding".toList = .ok (some (l, 1)) := by decide
  have hl := ((findCommon?_eq_some_iff (lt_length_of_handle?_parse hs)).mp hfound).1
  exact ⟨hs, hl, hasEffective_of_commonLine _ {} hs hl⟩

/-- Whether a subject stands in the block of a definition, after a direct line there that it does
not inherit. -/
def MissesDirectLine (d : Document) (s : SubjectId) : Prop :=
  ∃ n a q own l, d.registry.handle? s = some (.line n) ∧ d.lines[a]? = some own ∧
    own.isDefinition = true ∧ InBlock d.lines (.line a) n ∧ DirectLine d.lines (.line a) q l ∧
    q < n ∧ d.hasEffective s l.definition = .ok false

theorem missesDirectLine_of_block {s : SubjectId} (n a q : Nat) (l : Line) {own inner : Line}
    {block : List Line} (hs : d.registry.handle? s = some (.line n)) (ha : d.lines[a]? = some own)
    (hd : own.isDefinition = true) (hblock : d.block (.line a) = .ok (a + 1, block))
    (hin : (inner, n) ∈ block.zipIdx (a + 1)) (hinner : inner.isDefinition = true)
    (hfound : d.findDirect? (.line a) l.definition = .ok (some (l, q))) (hq : q < n)
    (hmisses : d.hasEffective s l.definition = .ok false) : d.MissesDirectLine s := by
  have hinside : (Handle.line a).Inside d :=
    Handle.inside_line (List.getElem?_eq_some_iff.mp ha).1
  have hl := ((findDirect?_eq_some_iff hinside).mp hfound).1
  exact ⟨n, a, q, own, l, hs, ha, hd, inBlock_of_mem_block hinside hblock hin hinner, hl, hq, hmisses⟩

/-- A direct line of a sheet is not inherited by an input in the block of the sheet that is nested
as deep as the line or less deep, or that follows a definition that is nested less deep than the
line. -/
theorem missesDirectLine_input :
    (parse "sheet\n  padding 2\n  input a".toList).MissesDirectLine 1 ∧
      (parse "sheet\n    padding 2\n  input a".toList).MissesDirectLine 1 ∧
      (parse "sheet\n    padding 2\n  scale 1\n      input a".toList).MissesDirectLine 1 := by
  refine ⟨?_, ?_, ?_⟩
  · exact missesDirectLine_of_block 2 0 1 (Line.parse 0 "  padding 2".toList) (by decide) rfl
      (by decide) rfl (.tail _ (.head _)) (by decide) (by decide) (by decide) (by decide)
  · exact missesDirectLine_of_block 2 0 1 (Line.parse 0 "    padding 2".toList) (by decide) rfl
      (by decide) rfl (.tail _ (.head _)) (by decide) (by decide) (by decide) (by decide)
  · exact missesDirectLine_of_block 3 0 1 (Line.parse 0 "    padding 2".toList) (by decide) rfl
      (by decide) rfl (.tail _ (.tail _ (.head _))) (by decide) (by decide) (by decide) (by decide)

end Document
end SpriteConfig
