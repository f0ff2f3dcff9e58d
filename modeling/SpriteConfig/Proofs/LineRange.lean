import SpriteConfig.LineRange
/-!
# The differing range

Two lists share what their `sharedLength` counts, and no more. So putting the lines of the differing
range in its place gives the proposed lines, and no other range that does so replaces fewer lines or
puts fewer lines there.
-/
namespace SpriteConfig

theorem take_eq_append_drop {α : Type} (as : List α) {n m : Nat} (h : n ≤ m) :
    as.take m = as.take n ++ (as.take m).drop n := by
  have hcut := List.take_append_drop n (as.take m)
  rwa [List.take_take, Nat.min_eq_left h, eq_comm] at hcut

section Shared

variable {α : Type} [DecidableEq α]

theorem le_sharedLength_iff {as bs : List α} {k : Nat} :
    k ≤ sharedLength as bs ↔ k ≤ as.length ∧ k ≤ bs.length ∧ as.take k = bs.take k := by
  fun_induction sharedLength as bs generalizing k with
  | case1 as b bs ih =>
    cases k with
    | zero => simp
    | succ k => simp [ih]
  | case2 a as b bs h =>
    cases k with
    | zero => simp
    | succ k => simp [h]
  | case3 as bs h =>
    cases as with
    | nil => simp +contextual
    | cons a as =>
      cases bs with
      | nil => simp +contextual
      | cons b bs => exact absurd rfl (h a as b bs rfl)

theorem le_sharedLength_reverse_iff {as bs : List α} {k : Nat} :
    k ≤ sharedLength as.reverse bs.reverse ↔
      k ≤ as.length ∧ k ≤ bs.length ∧ as.drop (as.length - k) = bs.drop (bs.length - k) := by
  rw [le_sharedLength_iff, List.length_reverse, List.length_reverse, List.take_reverse,
    List.take_reverse, List.reverse_inj]

theorem sharedLength_le_left (as bs : List α) : sharedLength as bs ≤ as.length :=
  (le_sharedLength_iff.mp (Nat.le_refl _)).1

theorem sharedLength_le_right (as bs : List α) : sharedLength as bs ≤ bs.length :=
  (le_sharedLength_iff.mp (Nat.le_refl _)).2.1

theorem take_sharedLength (as bs : List α) :
    as.take (sharedLength as bs) = bs.take (sharedLength as bs) :=
  (le_sharedLength_iff.mp (Nat.le_refl _)).2.2

theorem drop_sharedLength_reverse (as bs : List α) :
    as.drop (as.length - sharedLength as.reverse bs.reverse) =
      bs.drop (bs.length - sharedLength as.reverse bs.reverse) :=
  (le_sharedLength_reverse_iff.mp (Nat.le_refl _)).2.2

/-- An end that two lists share is still shared when as many members have been taken away from both
that they leave it whole. -/
theorem le_sharedLength_drop {as bs : List α} {k n : Nat}
    (h : k ≤ sharedLength as.reverse bs.reverse) (hleft : n + k ≤ as.length)
    (hright : n + k ≤ bs.length) : k ≤ sharedLength (as.drop n).reverse (bs.drop n).reverse := by
  have hend : ∀ {cs : List α}, n + k ≤ cs.length →
      (cs.drop n).drop ((cs.drop n).length - k) = cs.drop (cs.length - k) := by
    intro cs hle
    have hsum : n + (cs.length - n - k) = cs.length - k := by omega
    rw [List.length_drop, List.drop_drop, hsum]
  obtain ⟨-, -, hshared⟩ := le_sharedLength_reverse_iff.mp h
  rw [le_sharedLength_reverse_iff, hend hleft, hend hright, List.length_drop, List.length_drop]
  exact ⟨Nat.le_sub_of_add_le' hleft, Nat.le_sub_of_add_le' hright, hshared⟩

end Shared

namespace LineRange

theorem differing?_eq_none_iff {current proposed : List Text} :
    differing? current proposed = none ↔ current = proposed := by
  rw [differing?]
  split <;> simp_all

theorem replaceIn_differing? {current proposed : List Text} {r : LineRange}
    (h : differing? current proposed = some r) :
    r.first ≤ r.last ∧ r.last ≤ current.length ∧ r.replaceIn current = proposed := by
  rw [differing?] at h
  split at h
  · simp at h
  · simp only [Option.some.injEq] at h
    subst h
    have hfirst := sharedLength_le_left current proposed
    have hshared := take_sharedLength current proposed
    generalize sharedLength current proposed = first at hfirst hshared ⊢
    have hending := sharedLength_le_left (current.drop first).reverse (proposed.drop first).reverse
    have htail := drop_sharedLength_reverse (current.drop first) (proposed.drop first)
    generalize sharedLength (current.drop first).reverse (proposed.drop first).reverse = ending
      at hending htail ⊢
    simp only [List.length_reverse, List.length_drop] at hending
    dsimp only
    refine ⟨by omega, by omega, ?_⟩
    have hlast : first + ((current.drop first).length - ending) = current.length - ending := by
      simp only [List.length_drop]
      omega
    calc current.take first ++
          (proposed.drop first).take ((proposed.drop first).length - ending) ++
          current.drop (current.length - ending)
        = proposed.take first ++
            ((proposed.drop first).take ((proposed.drop first).length - ending) ++
              (proposed.drop first).drop ((proposed.drop first).length - ending)) := by
          rw [hshared, List.append_assoc, ← htail, List.drop_drop, hlast]
      _ = proposed := by rw [List.take_append_drop, List.take_append_drop]

theorem replaceIn_eq_nil_iff {r : LineRange} {current : List Text} (hne : current ≠ [])
    (hlast : r.last ≤ current.length) :
    r.replaceIn current = [] ↔ r.lines = [] ∧ r.first = 0 ∧ r.last = current.length := by
  simp only [replaceIn, List.append_eq_nil_iff, List.take_eq_nil_iff, hne, or_false,
    List.drop_eq_nil_iff]
  constructor
  · rintro ⟨⟨hfirst, hlines⟩, hle⟩
    exact ⟨hlines, hfirst, Nat.le_antisymm hlast hle⟩
  · rintro ⟨hlines, hfirst, heq⟩
    exact ⟨⟨hfirst, hlines⟩, Nat.le_of_eq heq.symm⟩

/-- Whether a range lies in the current lines, and replacing it gives the proposed ones. -/
structure Turns (r : LineRange) (current proposed : List Text) : Prop where
  first_le : r.first ≤ r.last
  last_le : r.last ≤ current.length
  replaceIn_eq : r.replaceIn current = proposed

section Turns

variable {current proposed : List Text} {r r' : LineRange}

theorem turns_differing? (h : differing? current proposed = some r) : r.Turns current proposed := by
  obtain ⟨hfirst, hlast, hreplace⟩ := replaceIn_differing? h
  exact ⟨hfirst, hlast, hreplace⟩

theorem Turns.first_le_length (h : r.Turns current proposed) : r.first ≤ current.length :=
  Nat.le_trans h.first_le h.last_le

theorem Turns.length_eq (h : r.Turns current proposed) :
    proposed.length = r.first + r.lines.length + (current.length - r.last) := by
  rw [← h.replaceIn_eq, replaceIn, List.length_append, List.length_append,
    List.length_take_of_le h.first_le_length, List.length_drop]

theorem Turns.take_first (h : r.Turns current proposed) :
    proposed.take r.first = current.take r.first := by
  rw [← h.replaceIn_eq, replaceIn, List.append_assoc]
  exact List.take_left' (List.length_take_of_le h.first_le_length)

theorem Turns.eq_append (h : r.Turns current proposed) :
    current =
      current.take r.first ++ (current.take r.last).drop r.first ++ current.drop r.last := by
  rw [← take_eq_append_drop current h.first_le, List.take_append_drop]

theorem Turns.first_le_sharedLength (h : r.Turns current proposed) :
    r.first ≤ sharedLength current proposed := by
  refine le_sharedLength_iff.mpr ⟨h.first_le_length, ?_, h.take_first.symm⟩
  rw [h.length_eq, Nat.add_assoc]
  exact Nat.le_add_right _ _

theorem Turns.after_le_sharedLength (h : r.Turns current proposed) :
    current.length - r.last ≤ sharedLength current.reverse proposed.reverse := by
  have hlength := h.length_eq
  have hlast := h.last_le
  have hbefore : (current.take r.first ++ r.lines).length =
      proposed.length - (current.length - r.last) := by
    rw [List.length_append, List.length_take_of_le h.first_le_length]
    omega
  have hafter : proposed.drop (proposed.length - (current.length - r.last)) =
      current.drop r.last := by
    calc proposed.drop (proposed.length - (current.length - r.last))
        = (r.replaceIn current).drop (current.take r.first ++ r.lines).length := by
          rw [h.replaceIn_eq, hbefore]
      _ = current.drop r.last := List.drop_left
  refine le_sharedLength_reverse_iff.mpr ⟨Nat.sub_le _ _, by omega, ?_⟩
  rw [hafter, Nat.sub_sub_self hlast]

theorem Turns.outside_le (h' : r'.Turns current proposed)
    (h : differing? current proposed = some r) :
    r'.first + (current.length - r'.last) ≤ r.first + (current.length - r.last) := by
  have hlength := h'.length_eq
  have hfirst := h'.first_le_sharedLength
  have hafter := h'.after_le_sharedLength
  have hleft := sharedLength_le_left current proposed
  have hright := sharedLength_le_right current proposed
  rw [differing?] at h
  split at h
  · simp at h
  · simp only [Option.some.injEq] at h
    subst h
    dsimp only
    generalize sharedLength current proposed = first at hfirst hleft hright ⊢
    -- The lines after the range are shared, unless the lines that are shared at the start are some
    -- of them.
    have hending : min (current.length - r'.last)
        (min (current.length - first) (proposed.length - first)) ≤
          sharedLength (current.drop first).reverse (proposed.drop first).reverse :=
      le_sharedLength_drop (by omega) (by omega) (by omega)
    have hbound := sharedLength_le_left (current.drop first).reverse (proposed.drop first).reverse
    simp only [List.length_reverse, List.length_drop] at hbound
    have hrange := h'.first_le
    have hlast := h'.last_le
    omega

theorem Turns.lengths_le (h' : r'.Turns current proposed)
    (h : differing? current proposed = some r) :
    r.replacedLength ≤ r'.replacedLength ∧ r.lines.length ≤ r'.lines.length := by
  have hturns := turns_differing? h
  have houtside := h'.outside_le h
  have hlength : r.first + r.lines.length + (current.length - r.last) =
      r'.first + r'.lines.length + (current.length - r'.last) :=
    hturns.length_eq.symm.trans h'.length_eq
  have hlast := hturns.last_le
  have hlast' := h'.last_le
  have hfirst' := h'.first_le
  rw [replacedLength, replacedLength]
  constructor <;> omega

/-- The differing range turns the current lines into the proposed ones, unless they are the same
already, and of all ranges that do so it replaces the fewest lines by the fewest lines. -/
theorem differing?_smallest (current proposed : List Text) :
    (differing? current proposed = none ↔ current = proposed) ∧
      ∀ r, differing? current proposed = some r →
        r.Turns current proposed ∧
          ∀ r' : LineRange, r'.Turns current proposed →
            r.replacedLength ≤ r'.replacedLength ∧ r.lines.length ≤ r'.lines.length :=
  ⟨differing?_eq_none_iff, fun _ h => ⟨turns_differing? h, fun _ h' => h'.lengths_le h⟩⟩

/-- Where a line is repeated, either one can be taken away, but not less than one. -/
theorem differing?_smallest_repeated_line :
    let current := ["a".toList, "b".toList, "b".toList, "c".toList]
    let proposed := ["a".toList, "b".toList, "c".toList]
    let r : LineRange := ⟨2, 3, []⟩
    let r' : LineRange := ⟨1, 2, []⟩
    differing? current proposed = some r ∧ r'.Turns current proposed ∧
      r.replacedLength ≤ r'.replacedLength ∧ r.lines.length ≤ r'.lines.length := by
  intro current proposed r r'
  have h : differing? current proposed = some r := by decide
  have h' : r'.Turns current proposed := ⟨by decide, by decide, by decide⟩
  exact ⟨h, h', ((differing?_smallest current proposed).2 r h).2 r' h'⟩

end Turns

end LineRange
end SpriteConfig
