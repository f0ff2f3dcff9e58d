import SpriteConfig.Proofs.Visible
/-!
# Lookups after an insertion

When a line is inserted, the lines that a lookup sees stay the same up to their numbers, except for
those that the new line is nested less deep than. A lookup that does not see the new line under its
name finds what it has found before.
-/
namespace SpriteConfig

/-- The number of line `n` when a line has been inserted that has number `i` now. -/
def shiftFrom (i n : Nat) : Nat := if i ≤ n then n + 1 else n

section Shifts

variable {i m n : Nat}

theorem shiftFrom_lt_shiftFrom_iff : shiftFrom i m < shiftFrom i n ↔ m < n := by
  rw [shiftFrom, shiftFrom]
  split <;> split <;> omega

theorem shiftFrom_lt_iff : shiftFrom i n < i ↔ n < i := by
  rw [shiftFrom]
  split <;> omega

theorem lt_shiftFrom_iff : i < shiftFrom i n ↔ i ≤ n := by
  rw [shiftFrom]
  split <;> omega

theorem shiftFrom_succ_self (n : Nat) : shiftFrom (n + 1) n = n := if_neg (Nat.not_succ_le_self n)

theorem eq_or_exists_shiftFrom (i n : Nat) : n = i ∨ ∃ m, n = shiftFrom i m := by
  rcases Nat.lt_trichotomy n i with hlt | rfl | hgt
  · exact .inr ⟨n, by rw [shiftFrom, if_neg (by omega)]⟩
  · exact .inl rfl
  · exact .inr ⟨n - 1, by rw [shiftFrom, if_pos (by omega)]; omega⟩

theorem Handle.moved_line_eq (after : Handle) (n : Nat) :
    (Handle.line n).moved after 1 = .line (shiftFrom after.next n) :=
  Handle.moved_line after n

theorem Handle.exists_of_moved_eq_line {h after : Handle} (hm : h.moved after 1 = .line n) :
    ∃ m, h = .line m ∧ n = shiftFrom after.next m := by
  cases h with
  | root => simp [moved] at hm
  | line m =>
    rw [moved_line_eq, Handle.line.injEq] at hm
    exact ⟨m, rfl, hm.symm⟩

theorem Handle.next_le_of_ne {h : Handle} (hne : h ≠ .line n) (hle : h.next ≤ n + 1) :
    h.next ≤ n := by
  cases h with
  | root => exact Nat.zero_le n
  | line m =>
    have hmn : m ≠ n := fun heq => hne (heq ▸ rfl)
    exact Nat.lt_of_le_of_ne (Nat.le_of_succ_le_succ hle) hmn

theorem Handle.moved_next_le_shiftFrom_iff {h after : Handle} :
    (h.moved after 1).next ≤ shiftFrom after.next n ↔ h.next ≤ n := by
  cases h with
  | root => exact iff_of_true (Nat.zero_le _) (Nat.zero_le _)
  | line m =>
    rw [moved_line_eq]
    exact shiftFrom_lt_shiftFrom_iff

theorem Handle.moved_next_le_next_iff {h after : Handle} :
    (h.moved after 1).next ≤ after.next ↔ h.next ≤ after.next := by
  cases h with
  | root => exact iff_of_true (Nat.zero_le _) (Nat.zero_le _)
  | line m =>
    rw [moved_line_eq]
    exact shiftFrom_lt_iff

end Shifts

structure InsertedAt (ls ls' : List Line) (i : Nat) (new : Line) : Prop where
  getElem?_shiftFrom : ∀ n, ls'[shiftFrom i n]? = ls[n]?
  getElem?_self : ls'[i]? = some new

theorem insertedAt_take_drop {ls : List Line} {i : Nat} (hi : i ≤ ls.length) (new : Line) :
    InsertedAt ls (ls.take i ++ new :: ls.drop i) i new :=
  ⟨getElem?_inserted hi new, getElem?_inserted_self hi new⟩

section Inserted

variable {ls ls' : List Line} {new l : Line} {h after : Handle} {i k n : Nat}

/-- What holds of the lines in a range holds of the same lines before the insertion, and of the new
line if it is in the range. -/
theorem InsertedAt.forall_between_iff (hnew : InsertedAt ls ls' k new) (P : Line → Prop)
    (first stop : Nat) {first' : Nat} (hfirst : ∀ j, first' ≤ shiftFrom k j ↔ first ≤ j)
    (hself : first' ≤ k ↔ first ≤ k) :
    (∀ j m, first' ≤ j → j < shiftFrom k stop → ls'[j]? = some m → P m) ↔
      (∀ j m, first ≤ j → j < stop → ls[j]? = some m → P m) ∧
        (first ≤ k → k ≤ stop → P new) := by
  constructor
  · intro hall
    constructor
    · intro j m hj hlt hm
      exact hall _ m ((hfirst j).mpr hj) (shiftFrom_lt_shiftFrom_iff.mpr hlt)
        ((hnew.getElem?_shiftFrom j).trans hm)
    · intro hk hle
      exact hall k new (hself.mpr hk) (lt_shiftFrom_iff.mpr hle) hnew.getElem?_self
  · rintro ⟨hold, hnewline⟩ j m hj hlt hm
    rcases eq_or_exists_shiftFrom k j with rfl | ⟨j, rfl⟩
    · obtain rfl : new = m := Option.some.inj (hnew.getElem?_self.symm.trans hm)
      exact hnewline (hself.mp hj) (lt_shiftFrom_iff.mp hlt)
    · exact hold j m ((hfirst j).mp hj) (shiftFrom_lt_shiftFrom_iff.mp hlt)
        ((hnew.getElem?_shiftFrom j).symm.trans hm)

/-- The direct lines stay the same, except for those that a new line is nested less deep than. -/
theorem InsertedAt.directLine_shiftFrom_iff (hnew : InsertedAt ls ls' after.next new) :
    DirectLine ls' (h.moved after 1) (shiftFrom after.next i) l ↔
      DirectLine ls h i l ∧ (h.next ≤ after.next → after.next ≤ i → new.isDefinition = true →
        l.level ≤ new.level) := by
  have hbetween := hnew.forall_between_iff (fun m => m.isDefinition = true → l.level ≤ m.level)
    h.next i (fun _ => Handle.moved_next_le_shiftFrom_iff) Handle.moved_next_le_next_iff
  constructor
  · intro hl
    obtain ⟨hout, hself⟩ := hbetween.mp hl.outermost
    refine ⟨⟨?_, hl.isDefinition, Handle.moved_next_le_shiftFrom_iff.mp hl.next_le, ?_, hout⟩, hself⟩
    · rw [← hnew.getElem?_shiftFrom, hl.line_eq]
    · rintro n own rfl hown
      exact hl.deeper _ own (Handle.moved_line_eq after n) ((hnew.getElem?_shiftFrom n).trans hown)
  · rintro ⟨hl, hself⟩
    refine ⟨?_, hl.isDefinition, Handle.moved_next_le_shiftFrom_iff.mpr hl.next_le, ?_,
      hbetween.mpr ⟨hl.outermost, hself⟩⟩
    · rw [hnew.getElem?_shiftFrom, hl.line_eq]
    · intro n own hn hown
      obtain ⟨m, rfl, rfl⟩ := Handle.exists_of_moved_eq_line hn
      exact hl.deeper m own rfl ((hnew.getElem?_shiftFrom m).symm.trans hown)

theorem InsertedAt.commonLine_shiftFrom_iff (hnew : InsertedAt ls ls' k new) :
    CommonLine ls' (shiftFrom k n) (shiftFrom k i) l ↔
      CommonLine ls n i l ∧ (i < k → k ≤ n → new.isDefinition = true → l.level ≤ new.level) := by
  have hbetween := hnew.forall_between_iff (fun m => m.isDefinition = true → l.level ≤ m.level)
    (i + 1) n (fun _ => shiftFrom_lt_shiftFrom_iff) shiftFrom_lt_iff
  constructor
  · intro hl
    obtain ⟨hout, hself⟩ := hbetween.mp hl.outermost
    refine ⟨⟨?_, hl.isDefinition, shiftFrom_lt_shiftFrom_iff.mp hl.lt, ?_, hout⟩, hself⟩
    · rw [← hnew.getElem?_shiftFrom, hl.line_eq]
    · intro own hown
      exact hl.shallower own ((hnew.getElem?_shiftFrom n).trans hown)
  · rintro ⟨hl, hself⟩
    refine ⟨?_, hl.isDefinition, shiftFrom_lt_shiftFrom_iff.mpr hl.lt, ?_,
      hbetween.mpr ⟨hl.outermost, hself⟩⟩
    · rw [hnew.getElem?_shiftFrom, hl.line_eq]
    · intro own hown
      exact hl.shallower own ((hnew.getElem?_shiftFrom n).symm.trans hown)

/-- A lookup for which the lines stay the same, and that does not see the new line under its name,
finds the same line. -/
theorem InsertedAt.findDefinition?_eq (hnew : InsertedAt ls ls' k new) {nearer : Nat → Nat → Prop}
    {P P' : Nat → Line → Prop} {xs ys : List (Line × Nat)} {name : Text}
    (henum : Enumerates nearer P xs) (henum' : Enumerates nearer P' ys)
    (hasymm : ∀ m n, nearer m n → ¬ nearer n m)
    (hnearer : ∀ m n, nearer (shiftFrom k m) (shiftFrom k n) → nearer m n)
    (hline : ∀ i l, P' i l → ls'[i]? = some l) (hsame : ∀ i l, P' (shiftFrom k i) l ↔ P i l)
    (hother : new.definition = name → ¬ P' k new) :
    findDefinition? name ys = (findDefinition? name xs).map fun x => (x.1, shiftFrom k x.2) := by
  apply henum.findDefinition?_eq_map henum' hasymm hnearer
  intro i l hname
  constructor
  · intro hl
    rcases eq_or_exists_shiftFrom k i with rfl | ⟨i, rfl⟩
    · obtain rfl : new = l := Option.some.inj (hnew.getElem?_self.symm.trans (hline _ l hl))
      exact absurd hl (hother hname)
    · exact ⟨i, rfl, (hsame i l).mp hl⟩
  · rintro ⟨i, rfl, hl⟩
    exact (hsame i l).mpr hl

/-- A lookup for which the lines stay the same, and that does not see the new line at all, sees the
same lines. -/
theorem InsertedAt.eq_map (hnew : InsertedAt ls ls' k new) {nearer : Nat → Nat → Prop}
    {P P' : Nat → Line → Prop} {xs ys : List (Line × Nat)} (henum : Enumerates nearer P xs)
    (henum' : Enumerates nearer P' ys) (hasymm : ∀ m n, nearer m n → ¬ nearer n m)
    (hnearer : ∀ {m n}, nearer m n → nearer (shiftFrom k m) (shiftFrom k n))
    (hline : ∀ i l, P' i l → ls'[i]? = some l) (hsame : ∀ i l, P' (shiftFrom k i) l ↔ P i l)
    (hself : ¬ P' k new) : ys = xs.map fun x => (x.1, shiftFrom k x.2) := by
  apply henum.eq_map henum' hasymm hnearer
  intro i l
  constructor
  · intro hl
    rcases eq_or_exists_shiftFrom k i with rfl | ⟨i, rfl⟩
    · obtain rfl : new = l := Option.some.inj (hnew.getElem?_self.symm.trans (hline _ l hl))
      exact absurd hl hself
    · exact ⟨i, rfl, (hsame i l).mp hl⟩
  · rintro ⟨i, rfl, hl⟩
    exact (hsame i l).mpr hl

theorem InsertedAt.shiftFrom_lt_length (hnew : InsertedAt ls ls' k new) (hn : n < ls.length) :
    shiftFrom k n < ls'.length := by
  have hget := hnew.getElem?_shiftFrom n
  rw [List.getElem?_eq_getElem hn] at hget
  exact (List.getElem?_eq_some_iff.mp hget).1

end Inserted

namespace Document

variable {d d' : Document} {h after : Handle} {name : Text} {new : Line} {n : Nat}
  {found : Option (Line × Nat)}

theorem Step.insertedAt {indent : Text} {values : List Text}
    (hstep : d.Step (.insert after indent name values) d') :
    InsertedAt d.lines d'.lines after.next (Line.make indent name values) := by
  cases hstep with
  | insert hle => exact insertedAt_take_drop hle _

theorem inside_moved (hnew : InsertedAt d.lines d'.lines after.next new) (hh : h.Inside d) :
    (h.moved after 1).Inside d' := by
  intro n hn
  obtain ⟨m, rfl, rfl⟩ := Handle.exists_of_moved_eq_line hn
  exact hnew.shiftFrom_lt_length (hh m rfl)

theorem directAt_of_inserted (hnew : InsertedAt d.lines d'.lines after.next new) (hh : h.Inside d)
    (hsame : ∀ i l, DirectLine d'.lines (h.moved after 1) (shiftFrom after.next i) l ↔
      DirectLine d.lines h i l)
    (hself : ¬ DirectLine d'.lines (h.moved after 1) after.next new) {xs : List (Line × Nat)}
    (hxs : d.directAt h = .ok xs) :
    d'.directAt (h.moved after 1) = .ok (xs.map fun x => (x.1, shiftFrom after.next x.2)) := by
  obtain ⟨_, hxs', henum⟩ := exists_enumerates_direct hh
  obtain rfl := Except.ok.inj (hxs.symm.trans hxs')
  obtain ⟨ys, hys, henum'⟩ := exists_enumerates_direct (inside_moved hnew hh)
  rw [hys, hnew.eq_map henum henum' (fun m n => Nat.lt_asymm) shiftFrom_lt_shiftFrom_iff.mpr
    (fun i l hl => hl.line_eq) hsame hself]

theorem commonAt_of_inserted {k : Nat} (hnew : InsertedAt d.lines d'.lines k new)
    (hn : n < d.lines.length)
    (hsame : ∀ i l, CommonLine d'.lines (shiftFrom k n) (shiftFrom k i) l ↔
      CommonLine d.lines n i l)
    (hself : ¬ CommonLine d'.lines (shiftFrom k n) k new) {xs : List (Line × Nat)}
    (hxs : d.commonAt (.line n) = .ok xs) :
    d'.commonAt (.line (shiftFrom k n)) = .ok (xs.map fun x => (x.1, shiftFrom k x.2)) := by
  obtain ⟨_, hxs', henum⟩ := exists_enumerates_common hn
  obtain rfl := Except.ok.inj (hxs.symm.trans hxs')
  obtain ⟨ys, hys, henum'⟩ := exists_enumerates_common (hnew.shiftFrom_lt_length hn)
  rw [hys, hnew.eq_map henum henum' (fun m n => Nat.lt_asymm) shiftFrom_lt_shiftFrom_iff.mpr
    (fun i l hl => hl.line_eq) hsame hself]

theorem findDirect?_of_inserted (hnew : InsertedAt d.lines d'.lines after.next new)
    (hh : h.Inside d)
    (hout : ∀ i l, DirectLine d.lines h i l → h.next ≤ after.next → after.next ≤ i →
      l.level ≤ new.level)
    (hother : new.definition = name → ¬ DirectLine d'.lines (h.moved after 1) after.next new)
    (hfound : d.findDirect? h name = .ok found) :
    d'.findDirect? (h.moved after 1) name =
      .ok (found.map fun x => (x.1, shiftFrom after.next x.2)) := by
  obtain ⟨xs, hxs, henum⟩ := exists_enumerates_direct hh
  obtain ⟨ys, hys, henum'⟩ := exists_enumerates_direct (inside_moved hnew hh)
  rw [findDirect?_of_directAt hxs, Except.ok.injEq] at hfound
  rw [findDirect?_of_directAt hys, ← hfound, Except.ok.injEq]
  apply hnew.findDefinition?_eq henum henum' (fun m n => Nat.lt_asymm) _ _ _ hother
  · intro m n hlt
    exact shiftFrom_lt_shiftFrom_iff.mp hlt
  · intro i l hl
    exact hl.line_eq
  · intro i l
    rw [hnew.directLine_shiftFrom_iff, and_iff_left_iff_imp]
    intro hl hbefore hle _
    exact hout i l hl hbefore hle

theorem findCommon?_of_inserted {k : Nat} (hnew : InsertedAt d.lines d'.lines k new)
    (hn : n < d.lines.length)
    (hout : ∀ i l, CommonLine d.lines n i l → i < k → k ≤ n → l.level ≤ new.level)
    (hother : new.definition = name → ¬ CommonLine d'.lines (shiftFrom k n) k new)
    (hfound : d.findCommon? (.line n) name = .ok found) :
    d'.findCommon? (.line (shiftFrom k n)) name =
      .ok (found.map fun x => (x.1, shiftFrom k x.2)) := by
  obtain ⟨xs, hxs, henum⟩ := exists_enumerates_common hn
  obtain ⟨ys, hys, henum'⟩ := exists_enumerates_common (hnew.shiftFrom_lt_length hn)
  rw [findCommon?_of_commonAt hxs, Except.ok.injEq] at hfound
  rw [findCommon?_of_commonAt hys, ← hfound, Except.ok.injEq]
  apply hnew.findDefinition?_eq henum henum' (fun m n => Nat.lt_asymm) _ _ _ hother
  · intro m n hlt
    exact shiftFrom_lt_shiftFrom_iff.mp hlt
  · intro i l hl
    exact hl.line_eq
  · intro i l
    rw [hnew.commonLine_shiftFrom_iff, and_iff_left_iff_imp]
    intro hl hi hk _
    exact hout i l hl hi hk

end Document
end SpriteConfig
