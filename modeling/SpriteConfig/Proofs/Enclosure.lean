import SpriteConfig.Proofs.Agreement
/-!
# Sprites in the blocks of their inputs

A scan gives a sprite to the latest input, whether or not the block of that input has ended. In
lines that are enclosed it has not: every sprite line stands in the block of the latest input. That
is why a block can be deleted together with inputs in it, and no sprite is left for an input before.
-/
namespace SpriteConfig

open List (Forall₂)

/-- Where lines stand with respect to the latest input. -/
inductive Enclosure
  /-- There is no input yet. -/
  | unopened
  /-- In the block of an input of a level. -/
  | inside (level : Nat)
  /-- After the block. -/
  | outside
  deriving DecidableEq, Repr

namespace Enclosure

def after (e : Enclosure) (l : Line) : Enclosure :=
  if l.definition = SubjectKind.input.token then .inside l.level
  else
    match e with
    | unopened => unopened
    | inside level => if l.closes level then outside else inside level
    | outside => outside

def afterAll (e : Enclosure) (ls : List Line) : Enclosure := ls.foldl after e

/-- Whether there was an input, and its block is no longer than one of level `level`. -/
def Covers (level : Nat) : Enclosure → Prop
  | unopened => False
  | inside n => level ≤ n
  | outside => True

end Enclosure

/-- Whether every sprite line stands in the block of the latest input, if there is one. -/
def Enclosed : Enclosure → List Line → Prop
  | _, [] => True
  | e, l :: ls =>
    (l.definition = SubjectKind.sprite.token → e.after l ≠ .outside) ∧ Enclosed (e.after l) ls

/-- Whether an input line comes before every sprite line. -/
def Detached : List Line → Prop
  | [] => True
  | l :: ls =>
    l.definition = SubjectKind.input.token ∨
      l.definition ≠ SubjectKind.sprite.token ∧ Detached ls

variable {e : Enclosure} {l : Line} {ls ms ns : List Line} {level : Nat}

namespace Enclosure

theorem after_of_input (hl : l.definition = SubjectKind.input.token) :
    e.after l = .inside l.level :=
  if_pos hl

theorem after_outside (hl : l.definition ≠ SubjectKind.input.token) : outside.after l = outside :=
  if_neg hl

theorem after_inside (hl : l.definition ≠ SubjectKind.input.token) :
    (inside level).after l = if l.closes level then outside else inside level :=
  if_neg hl

theorem after_of_not_closes (hl : l.definition ≠ SubjectKind.input.token)
    (hopen : ∀ level, e = inside level → l.closes level = false) : e.after l = e := by
  cases e with
  | unopened => exact if_neg hl
  | inside level => rw [after_inside hl, hopen level rfl, if_neg Bool.false_ne_true]
  | outside => exact after_outside hl

theorem afterAll_append (e : Enclosure) (ls ms : List Line) :
    e.afterAll (ls ++ ms) = (e.afterAll ls).afterAll ms :=
  List.foldl_append

theorem le_of_after_eq_inside (h : e.after l = .inside level) (hd : l.isDefinition = true) :
    level ≤ l.level := by
  by_cases hl : l.definition = SubjectKind.input.token
  · rw [after_of_input hl] at h
    exact (inside.inj h).ge
  · cases e with
    | unopened => simp [after, hl] at h
    | outside => simp [after, hl] at h
    | inside n =>
      rw [after_inside hl] at h
      split at h
      · simp at h
      · next hopen =>
        simp only [Line.closes, hd, Bool.true_and, decide_eq_true_eq] at hopen
        rw [← inside.inj h]
        omega

theorem afterAll_eq_or (h : ∀ l ∈ ls, l.definition ≠ SubjectKind.input.token) :
    e.afterAll ls = e ∨ e.afterAll ls = .outside := by
  induction ls generalizing e with
  | nil => exact .inl rfl
  | cons l ls ih =>
    obtain ⟨hl, hls⟩ := List.forall_mem_cons.mp h
    have hout : (e.after l).afterAll ls = e.after l ∨ (e.after l).afterAll ls = .outside := ih hls
    have hafter : e.after l = e ∨ e.after l = .outside := by
      cases e with
      | unopened => exact .inl (if_neg hl)
      | outside => exact .inl (after_outside hl)
      | inside level =>
        rw [after_inside hl]
        split
        · exact .inr rfl
        · exact .inl rfl
    rcases hout with hout | hout
    · rcases hafter with hafter | hafter
      · exact .inl (hout.trans hafter)
      · exact .inr (hout.trans hafter)
    · exact .inr hout

theorem covers_after_of_input (hl : l.definition = SubjectKind.input.token)
    (hopen : l.closes level = false) : (e.after l).Covers level := by
  rw [after_of_input hl]
  have hd : l.isDefinition = true := Line.isDefinition_of_eq_token hl
  simp only [Line.closes, hd, Bool.true_and, decide_eq_false_iff_not] at hopen
  exact Nat.le_of_not_le hopen

theorem Covers.after (h : e.Covers level) (hopen : l.closes level = false) :
    (e.after l).Covers level := by
  by_cases hl : l.definition = SubjectKind.input.token
  · exact covers_after_of_input hl hopen
  · cases e with
    | unopened => exact h.elim
    | outside => rw [after_outside hl]; trivial
    | inside n =>
      rw [after_inside hl]
      split
      · trivial
      · exact h

theorem Covers.afterAll (h : e.Covers level) (hopen : ∀ l ∈ ls, l.closes level = false) :
    (e.afterAll ls).Covers level := by
  induction ls generalizing e with
  | nil => exact h
  | cons l ls ih =>
    obtain ⟨hl, hls⟩ := List.forall_mem_cons.mp hopen
    exact ih (h.after hl) hls

theorem covers_afterAll_of_input (hopen : ∀ l ∈ ls, l.closes level = false)
    (hinput : ∃ l ∈ ls, l.definition = SubjectKind.input.token) : (e.afterAll ls).Covers level := by
  obtain ⟨l, hl, hinput⟩ := hinput
  obtain ⟨as, bs, rfl⟩ := List.append_of_mem hl
  have hbs : ∀ m ∈ bs, m.closes level = false := fun m hm => hopen m (by simp [hm])
  rw [afterAll_append]
  exact (covers_after_of_input hinput (hopen l hl)).afterAll hbs

end Enclosure

theorem enclosed_append :
    Enclosed e (ls ++ ms) ↔ Enclosed e ls ∧ Enclosed (e.afterAll ls) ms := by
  induction ls generalizing e with
  | nil => exact (and_iff_right trivial).symm
  | cons l ls ih =>
    rw [List.cons_append, Enclosed, Enclosed, ih, and_assoc]
    rfl

theorem Enclosed.of_detached (h : Enclosed e ls) (hd : Detached ls) (e' : Enclosure) :
    Enclosed e' ls := by
  induction ls generalizing e e' with
  | nil => trivial
  | cons l ls ih =>
    obtain ⟨hsprite, hrest⟩ := h
    rcases hd with hl | ⟨hl, hd⟩
    · rw [Enclosure.after_of_input hl] at hsprite hrest
      rw [Enclosed, Enclosure.after_of_input hl]
      exact ⟨hsprite, hrest⟩
    · exact ⟨fun h => absurd h hl, ih hrest hd _⟩

theorem detached_of_outside (h : Enclosed .outside ls) : Detached ls := by
  induction ls with
  | nil => trivial
  | cons l ls ih =>
    by_cases hl : l.definition = SubjectKind.input.token
    · exact .inl hl
    · rw [Enclosed, Enclosure.after_outside hl] at h
      exact .inr ⟨fun hsprite => h.1 hsprite rfl, ih h.2⟩

theorem Enclosed.delete (h : Enclosed e (ls ++ (ms ++ ns)))
    (hms : (∀ l ∈ ms, l.definition ≠ SubjectKind.input.token) ∨ Detached ns) :
    Enclosed e (ls ++ ns) := by
  obtain ⟨hls, hrest⟩ := enclosed_append.mp h
  obtain ⟨-, hns⟩ := enclosed_append.mp hrest
  refine enclosed_append.mpr ⟨hls, ?_⟩
  rcases hms with hms | hdetached
  -- If the block of the latest input ends in the deleted lines, no sprite comes after them.
  · rcases Enclosure.afterAll_eq_or hms with heq | heq
    · rwa [heq] at hns
    · rw [heq] at hns
      exact hns.of_detached (detached_of_outside hns) _
  · exact hns.of_detached hdetached _

theorem Enclosed.insert (h : Enclosed e (ls ++ ns))
    (hl : l.definition ≠ SubjectKind.input.token)
    (hopen : ∀ level, e.afterAll ls = .inside level → l.closes level = false)
    (hsprite : l.definition = SubjectKind.sprite.token → e.afterAll ls ≠ .outside) :
    Enclosed e (ls ++ l :: ns) := by
  obtain ⟨hls, hns⟩ := enclosed_append.mp h
  refine enclosed_append.mpr ⟨hls, ?_⟩
  rw [Enclosed, Enclosure.after_of_not_closes hl hopen]
  exact ⟨hsprite, hns⟩

theorem Enclosure.after_congr {m : Line} (ha : l.Alike m) (e : Enclosure) :
    e.after l = e.after m := by
  by_cases hl : l.definition = SubjectKind.input.token
  · rw [after_of_input hl, after_of_input (ha.definition_eq ▸ hl),
      ha.level_eq (Line.isDefinition_of_eq_token hl)]
  · simp only [after, ← ha.definition_eq, ha.closes_eq, if_neg hl]

theorem Enclosed.congr (h : Enclosed e ls) (ha : Forall₂ Line.Alike ls ms) : Enclosed e ms := by
  induction ha generalizing e with
  | nil => trivial
  | cons hlm _ ih =>
    obtain ⟨hsprite, hrest⟩ := h
    rw [Enclosed, ← Enclosure.after_congr hlm, ← hlm.definition_eq]
    exact ⟨hsprite, ih hrest⟩

theorem Enclosed.detached (h : Enclosed e (ls ++ ms)) (he : e.Covers level)
    (hls : ∀ l ∈ ls, l.isDefinition = false) (hms : ∀ l, ms.head? = some l → l.closes level = true) :
    Detached (ls ++ ms) := by
  induction ls generalizing e with
  | nil =>
    cases ms with
    | nil => trivial
    | cons l ms =>
      have hclose := hms l rfl
      by_cases hl : l.definition = SubjectKind.input.token
      · exact .inl hl
      · have hout : e.after l = .outside := by
          cases e with
          | unopened => exact he.elim
          | outside => exact Enclosure.after_outside hl
          | inside n =>
            simp only [Line.closes, Bool.and_eq_true, decide_eq_true_eq] at hclose
            have hn : l.closes n = true := by
              simp only [Line.closes, hclose.1, Bool.true_and, decide_eq_true_eq]
              exact hclose.2.trans he
            rw [Enclosure.after_inside hl, if_pos hn]
        rw [List.nil_append, Enclosed, hout] at h
        exact .inr ⟨fun hsprite => h.1 hsprite rfl, detached_of_outside h.2⟩
  | cons l ls ih =>
    obtain ⟨hl, hls⟩ := List.forall_mem_cons.mp hls
    have hnot := Line.ne_token_of_not_isDefinition hl
    have hafter : e.after l = e :=
      Enclosure.after_of_not_closes (hnot .input) fun n _ => by simp [Line.closes, hl]
    rw [List.cons_append, Enclosed, hafter] at h
    exact .inr ⟨hnot .sprite, ih h.2 he hls⟩

theorem Detached.head_ne_sprite (h : Detached (l :: ls)) :
    l.definition ≠ SubjectKind.sprite.token := by
  rcases h with hl | ⟨hl, -⟩
  · rw [hl]
    decide
  · exact hl

theorem Detached.tail (h : Detached (l :: ls)) (hl : l.definition ≠ SubjectKind.input.token) :
    Detached ls :=
  (h.resolve_left hl).2

section Blocks

theorem closes_of_mem_blockBelow {below : List Line} (hl : l ∈ blockBelow level below) :
    l.closes level = false := by
  have hmem := (prefix_dropTrailing _ _).subset hl
  simpa using List.all_eq_true.mp List.all_takeWhile _ hmem

theorem exists_blockBelow_append (level : Nat) (below : List Line) :
    ∃ ls ms, below = blockBelow level below ++ (ls ++ ms) ∧ (∀ l ∈ ls, l.isDefinition = false) ∧
      ∀ l, ms.head? = some l → l.closes level = true := by
  obtain ⟨ls, hls, hblank⟩ := exists_dropTrailing_append (fun l : Line => !l.isNestedDeeper level)
    (below.takeWhile fun l => !l.closes level)
  refine ⟨ls, below.dropWhile fun l => !l.closes level, ?_, ?_, ?_⟩
  · rw [← List.append_assoc, blockBelow, ← hls, List.takeWhile_append_dropWhile]
  · intro l hl
    have hnot : l.isNestedDeeper level = false := by simpa using hblank l hl
    rw [Line.isNestedDeeper, Bool.or_eq_false_iff] at hnot
    exact hnot.1
  · intro l hl
    have hhead := List.head?_dropWhile_not (fun l : Line => !l.closes level) below
    rw [hl] at hhead
    simpa using hhead

theorem isSheetLine_of_mem_blockBelow {below : List Line} (hl : l ∈ blockBelow level below) :
    Registry.isSheetLine l = false := by
  rw [Bool.eq_false_iff]
  intro hsheet
  simp only [Registry.isSheetLine, Bool.and_eq_true, decide_eq_true_eq] at hsheet
  have hopen := closes_of_mem_blockBelow hl
  simp [Line.closes, hsheet.1, Line.isDefinition_of_eq_token hsheet.2] at hopen

/-- Lines after a block are detached, if there is an input in the block or right before it. -/
theorem Enclosed.exists_block {below : List Line} (h : Enclosed e (l :: below)) :
    ∃ rest, below = blockBelow l.level below ++ rest ∧
      ((∀ m ∈ blockBelow l.level below, m.definition ≠ SubjectKind.input.token) ∨
        Detached rest) ∧
      (l.definition = SubjectKind.input.token → Detached rest) := by
  obtain ⟨gap, rest, hbelow, hgap, hrest⟩ := exists_blockBelow_append l.level below
  have hopen : ∀ m ∈ blockBelow l.level below, m.closes l.level = false :=
    fun m hm => closes_of_mem_blockBelow hm
  generalize blockBelow l.level below = block at hbelow hopen ⊢
  subst hbelow
  have henclosed := (enclosed_append.mp h.2).2
  refine ⟨gap ++ rest, rfl, ?_, ?_⟩
  · by_cases hinput : ∃ m ∈ block, m.definition = SubjectKind.input.token
    · exact .inr (henclosed.detached (Enclosure.covers_afterAll_of_input hopen hinput) hgap hrest)
    · exact .inl fun m hm hdef => hinput ⟨m, hm, hdef⟩
  · intro hinput
    refine henclosed.detached (Enclosure.Covers.afterAll ?_ hopen) hgap hrest
    rw [Enclosure.after_of_input hinput]
    exact Nat.le_refl _

end Blocks

end SpriteConfig
