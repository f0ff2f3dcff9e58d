import SpriteConfig.Subject.Registry
/-!
# Subjects on their lines

The registry is told of every insertion and deletion of lines. Whatever holds of each subject and
the entry of a list that it stands on still holds after the same insertion or deletion has been made
in the list; the list may be the lines themselves or anything that is kept beside them.
-/
namespace SpriteConfig

def Handle.next (h : Handle) : Nat := (h.line?.map (· + 1)).getD 0

theorem Handle.moved_line (after : Handle) (n : Nat) :
    (Handle.line n).moved after 1 = .line (if after.next ≤ n then n + 1 else n) := by
  cases after with
  | root => simp [moved, before, next, line?]
  | line m =>
    have hnext : (line m).next = m + 1 := rfl
    simp only [moved, before, decide_eq_true_eq, hnext]
    by_cases h : m < n
    · rw [if_pos h, if_pos (by omega)]
      rfl
    · rw [if_neg h, if_neg (by omega)]

theorem Handle.eq_root_of_moved {h after : Handle} {delta : Int}
    (hm : h.moved after delta = .root) :
    h = .root := by
  cases h with
  | root => rfl
  | line n =>
    simp only [moved] at hm
    split at hm <;> simp at hm

theorem Handle.moved_self (h : Handle) : h.moved h 1 = h := by
  cases h with
  | root => rfl
  | line n =>
    have hlt : ¬ (Handle.line n).next ≤ n := Nat.not_succ_le_self n
    rw [Handle.moved_line, if_neg hlt]

theorem Handle.moved_ne_next (h after : Handle) : h.moved after 1 ≠ .line after.next := by
  cases h with
  | root => simp [moved]
  | line n =>
    rw [Handle.moved_line, ne_eq, Handle.line.injEq]
    split <;> omega

theorem Handle.before_next (h : Handle) : h.before (.line h.next) = true := by
  cases h with
  | root => rfl
  | line n => exact decide_eq_true (Nat.lt_succ_self n)

section Lists

variable {α : Type} {ls : List α}

theorem take_append_cons_drop {i : Nat} (h : i ≤ ls.length) (a : α) :
    ls.take i ++ a :: ls.drop i = ls.insertIdx i a := by
  induction ls generalizing i with
  | nil =>
    obtain rfl : i = 0 := Nat.le_zero.mp h
    rfl
  | cons b ls ih =>
    cases i with
    | zero => rfl
    | succ i =>
      rw [List.insertIdx_succ_cons, ← ih (Nat.le_of_succ_le_succ h)]
      rfl

theorem getElem?_inserted {i : Nat} (h : i ≤ ls.length) (a : α) (n : Nat) :
    (ls.take i ++ a :: ls.drop i)[if i ≤ n then n + 1 else n]? = ls[n]? := by
  rw [take_append_cons_drop h]
  by_cases hn : i ≤ n
  · rw [if_pos hn, List.getElem?_insertIdx_of_gt (Nat.lt_succ_of_le hn), Nat.succ_sub_one]
  · rw [if_neg hn, List.getElem?_insertIdx_of_lt (Nat.lt_of_not_le hn)]

theorem getElem?_inserted_self {i : Nat} (h : i ≤ ls.length) (a : α) :
    (ls.take i ++ a :: ls.drop i)[i]? = some a := by
  rw [take_append_cons_drop h, List.getElem?_insertIdx_self, if_pos h]

theorem getElem?_deleted {start stop : Nat} (hle : start ≤ stop) (h : stop ≤ ls.length) {n : Nat}
    (hn : n < start ∨ stop ≤ n) :
    (ls.take start ++ ls.drop stop)[if stop ≤ n then n - (stop - start) else n]? = ls[n]? := by
  have hlen : (ls.take start).length = start := by simp; omega
  by_cases hstop : stop ≤ n
  · rw [if_pos hstop, List.getElem?_append_right (by omega), hlen, List.getElem?_drop]
    congr 1
    omega
  · rw [if_neg hstop, List.getElem?_append_left (by omega), List.getElem?_take_of_lt (by omega)]

theorem eq_take_cons_drop {n : Nat} {a : α} (h : ls[n]? = some a) :
    ls = ls.take n ++ a :: ls.drop (n + 1) := by
  obtain ⟨hn, rfl⟩ := List.getElem?_eq_some_iff.mp h
  rw [List.getElem_cons_drop, List.take_append_drop]

theorem getElem?_of_drop_eq_cons {n : Nat} {a : α} {as : List α} (h : ls.drop n = a :: as) :
    ls[n]? = some a ∧ ls.drop (n + 1) = as := by
  constructor
  · rw [← Nat.add_zero n, ← List.getElem?_drop, h, List.getElem?_cons_zero]
  · rw [← List.drop_drop, h, List.drop_one, List.tail_cons]

end Lists

namespace Registry

variable {α : Type} {r : Registry} {ls : List α} {P : SubjectId → SubjectKind → α → Prop}

/-- Each subject on a line stands on an entry of the list that it is related to. -/
def Stands (r : Registry) (ls : List α) (P : SubjectId → SubjectKind → α → Prop) : Prop :=
  ∀ s ∈ r.subjects, ∀ n, s.handle = .line n → ∃ a, ls[n]? = some a ∧ P s.id s.kind a

theorem mem_insertOrdered {s a : Subject} {ss : List Subject} :
    s ∈ insertOrdered a ss ↔ s = a ∨ s ∈ ss := by
  induction ss with
  | nil => simp [insertOrdered]
  | cons b ss ih =>
    rw [insertOrdered]
    split
    · simp
    · simp only [List.mem_cons, ih]
      exact or_left_comm

def Introduces (_ : SubjectId) (kind : SubjectKind) (l : Line) : Prop := l.definition = kind.token

private theorem subjectsFrom_map_id (n id : Nat) (sheet input : Option SubjectId) (ls : List Line) :
    (subjectsFrom n id sheet input ls).map Subject.id =
      List.range' id (subjectsFrom n id sheet input ls).length := by
  fun_induction subjectsFrom n id sheet input ls with
  | case1 => rfl
  | case2 n id sheet input l ls _ ih => simp [List.range'_succ, ih]
  | case3 n id sheet input l ls _ _ ih => simp [List.range'_succ, ih]
  | case4 n id sheet input l ls _ _ _ ih => simp [List.range'_succ, ih]
  | case5 n id sheet input l ls _ _ _ ih => exact ih

theorem ofLines_map_id (ls : List Line) :
    (ofLines ls).subjects.map Subject.id = List.range (ofLines ls).nextId := by
  rw [List.range_eq_range']
  simp only [ofLines]
  split
  · exact subjectsFrom_map_id 0 0 none none ls
  · simp [List.range'_succ, subjectsFrom_map_id]

theorem mem_ofKind_iff {id : SubjectId} {kind : SubjectKind} :
    id ∈ r.ofKind kind ↔ ∃ s ∈ r.subjects, s.kind = kind ∧ s.id = id := by
  simp [ofKind, and_assoc]

theorem mem_sprites_iff {id p : SubjectId} :
    id ∈ r.sprites p ↔ ∃ s ∈ r.subjects, s.kind = .sprite ∧ s.parent = some p ∧ s.id = id := by
  simp [sprites, and_assoc]

theorem find?_of_mem (hr : (r.subjects.map Subject.id).Nodup) {s : Subject}
    (hs : s ∈ r.subjects) : r.find? s.id = some s := by
  rw [find?]
  generalize r.subjects = ss at hr hs
  induction ss with
  | nil => simp at hs
  | cons a ss ih =>
    simp only [List.map_cons, List.nodup_cons] at hr
    rcases List.mem_cons.mp hs with rfl | hs
    · simp
    · have hne : a.id ≠ s.id := fun h => hr.1 (h ▸ List.mem_map_of_mem hs)
      rw [List.find?_cons_of_neg (by simpa using hne), ih hr.2 hs]

theorem handle?_of_mem (hr : (r.subjects.map Subject.id).Nodup) {s : Subject}
    (hs : s ∈ r.subjects) : r.handle? s.id = some s.handle := by
  rw [handle?, find?_of_mem hr hs]
  rfl

theorem handle?_shiftAfter {id : SubjectId} {h : Handle} (hh : r.handle? id = some h)
    (after : Handle) : (r.shiftAfter after 1).handle? id = some (h.moved after 1) := by
  simp only [handle?, find?, shiftAfter, List.find?_map, Option.map_eq_some_iff] at hh ⊢
  obtain ⟨s, hs, rfl⟩ := hh
  exact ⟨_, ⟨s, hs, rfl⟩, rfl⟩

def shifted (after : Handle) (s : Subject) : Subject :=
  { s with handle := s.handle.moved after 1 }

theorem shifted_line (after : Handle) (id : SubjectId) (kind : SubjectKind) (n : Nat)
    (parent : Option SubjectId) :
    shifted after ⟨id, kind, .line n, parent⟩ =
      ⟨id, kind, .line (if after.next ≤ n then n + 1 else n), parent⟩ := by
  rw [shifted, Handle.moved_line]

private theorem subjectsFrom_shifted {after : Handle} {n : Nat} (h : after.next ≤ n)
    (id : SubjectId) (sheet input : Option SubjectId) (ls : List Line) :
    subjectsFrom (n + 1) id sheet input ls =
      (subjectsFrom n id sheet input ls).map (shifted after) := by
  induction ls generalizing n id sheet input with
  | nil => rfl
  | cons l ls ih =>
    have hnext : after.next ≤ n + 1 := Nat.le_succ_of_le h
    simp only [subjectsFrom, ih hnext]
    split
    · rw [List.map_cons, shifted_line, if_pos h]
    · split
      · rw [List.map_cons, shifted_line, if_pos h]
      · split
        · rw [List.map_cons, shifted_line, if_pos h]
        · rfl

private theorem subjectsFrom_inserted {after : Handle} {l : Line} {ls : List Line} {n k : Nat}
    (hl : ∀ kind : SubjectKind, l.definition ≠ kind.token) (hnext : after.next = n + k)
    (hk : k ≤ ls.length) (id : SubjectId) (sheet input : Option SubjectId) :
    subjectsFrom n id sheet input (ls.take k ++ l :: ls.drop k) =
      (subjectsFrom n id sheet input ls).map (shifted after) := by
  induction k generalizing n ls id sheet input with
  | zero =>
    have hsheet : isSheetLine l = false := by simp [isSheetLine, hl .sheet]
    simp only [List.take_zero, List.drop_zero, List.nil_append, subjectsFrom, hsheet, hl .input,
      hl .sprite, false_and, if_false, Bool.false_eq_true]
    exact subjectsFrom_shifted (by omega) id sheet input ls
  | succ k ih =>
    cases ls with
    | nil => simp at hk
    | cons a ls =>
      have hbefore : ¬ after.next ≤ n := by omega
      have hk' : k ≤ ls.length := by simpa using hk
      have hrest := ih (n := n + 1) (by omega) hk'
      simp only [List.take_succ_cons, List.drop_succ_cons, List.cons_append, subjectsFrom, hrest]
      split
      · rw [List.map_cons, shifted_line, if_neg hbefore]
      · split
        · rw [List.map_cons, shifted_line, if_neg hbefore]
        · split
          · rw [List.map_cons, shifted_line, if_neg hbefore]
          · rfl

theorem ofLines_inserted {after : Handle} {l : Line} {ls : List Line}
    (hl : ∀ kind : SubjectKind, l.definition ≠ kind.token) (hle : after.next ≤ ls.length) :
    ofLines (ls.take after.next ++ l :: ls.drop after.next) = (ofLines ls).shiftAfter after 1 := by
  have hfrom := subjectsFrom_inserted hl (Nat.zero_add after.next).symm hle
  have hsheet : isSheetLine l = false := by simp [isSheetLine, hl .sheet]
  have hany : (ls.take after.next ++ l :: ls.drop after.next).any isSheetLine =
      ls.any isSheetLine := by
    rw [List.any_append, List.any_cons, hsheet, Bool.false_or, ← List.any_append,
      List.take_append_drop]
  simp only [ofLines, hany, hfrom, shiftAfter]
  split
  · rw [List.length_map]
    rfl
  · rw [List.length_cons, List.length_cons, List.length_map]
    rfl

def gone (r : Registry) (start stop : Nat) : List SubjectId :=
  (r.subjects.filter (standsIn start stop)).map Subject.id

theorem mem_gone {start stop : Nat} {s : Subject} (hs : s ∈ r.subjects) {n : Nat}
    (hn : s.handle = .line n) (hstart : start ≤ n) (hstop : n < stop) :
    s.id ∈ r.gone start stop := by
  refine List.mem_map_of_mem (List.mem_filter.mpr ⟨hs, ?_⟩)
  simp [standsIn, hn, hstart, hstop]

theorem lt_or_le_of_not_mem_gone {start stop : Nat} {s : Subject} (hs : s ∈ r.subjects)
    (hkept : s.id ∉ r.gone start stop) {n : Nat} (hn : s.handle = .line n) :
    n < start ∨ stop ≤ n := by
  rcases Nat.lt_or_ge n start with hstart | hstart
  · exact .inl hstart
  · exact .inr (Nat.not_lt.mp fun hstop => hkept (mem_gone hs hn hstart hstop))

theorem subjects_deleteLines (start stop : Nat) :
    (r.deleteLines start stop).subjects =
      (r.subjects.filter fun s => !(r.gone start stop).contains s.id).map
        (moveAfter stop (r.gone start stop) (· - (stop - start))) := by
  rw [deleteLines]
  split
  · rfl
  · next hge =>
    have hgone : r.gone start stop = [] := by
      rw [gone, List.filter_eq_nil_iff.mpr, List.map_nil]
      intro s _
      cases hh : s.handle with
      | root => simp [standsIn, hh]
      | line n =>
        simp only [standsIn, hh, Bool.and_eq_true, decide_eq_true_eq]
        omega
    have hmove : moveAfter stop [] (· - (stop - start)) = id := by
      funext ⟨id, kind, handle, parent⟩
      have hcount : stop - start = 0 := by omega
      cases handle <;> cases parent <;> simp [moveAfter, hcount, Option.filter]
    rw [hgone, hmove, List.map_id, List.filter_eq_self.mpr]
    exact fun _ _ => rfl

theorem mem_deleteLines {start stop : Nat} {s : Subject} :
    s ∈ (r.deleteLines start stop).subjects ↔
      ∃ s' ∈ r.subjects, s'.id ∉ r.gone start stop ∧
        moveAfter stop (r.gone start stop) (· - (stop - start)) s' = s := by
  simp [subjects_deleteLines, and_assoc]

theorem eq_root_of_moveAfter {stop : Nat} {gone : List SubjectId} {move : Nat → Nat} {s : Subject}
    (hh : (moveAfter stop gone move s).handle = .root) : s.handle = .root := by
  cases hroot : s.handle with
  | root => rfl
  | line n =>
    simp only [moveAfter, hroot] at hh
    split at hh <;> simp at hh

theorem exists_mem_deleteLines {start stop : Nat} {s : Subject} (hs : s ∈ r.subjects)
    (hkept : s.id ∉ r.gone start stop) :
    ∃ s' ∈ (r.deleteLines start stop).subjects, s'.id = s.id :=
  ⟨_, mem_deleteLines.mpr ⟨s, hs, hkept, rfl⟩, rfl⟩

theorem nextId_deleteLines (start stop : Nat) : (r.deleteLines start stop).nextId = r.nextId := by
  rw [deleteLines]
  split <;> rfl

theorem Stands.insert (h : r.Stands ls P) {after : Handle} (hle : after.next ≤ ls.length) (a : α) :
    (r.shiftAfter after 1).Stands (ls.take after.next ++ a :: ls.drop after.next) P := by
  intro s hs n hn
  obtain ⟨s, hmem, rfl⟩ := List.mem_map.mp hs
  cases hh : s.handle with
  | root => simp [hh, Handle.moved] at hn
  | line m =>
    simp only [hh, Handle.moved_line, Handle.line.injEq] at hn
    rw [← hn, getElem?_inserted hle]
    exact h s hmem m hh

theorem Stands.delete (h : r.Stands ls P) {start stop : Nat} (hle : start ≤ stop)
    (hstop : stop ≤ ls.length) :
    (r.deleteLines start stop).Stands (ls.take start ++ ls.drop stop) P := by
  intro s hs n hn
  obtain ⟨s, hmem, hkept, rfl⟩ := mem_deleteLines.mp hs
  cases hh : s.handle with
  | root => simp [moveAfter, hh] at hn
  | line m =>
    have hout := lt_or_le_of_not_mem_gone hmem hkept hh
    have hmove : (if stop ≤ m then m - (stop - start) else m) = n := by
      by_cases hafter : stop ≤ m <;> simpa [moveAfter, hh, hafter] using hn
    rw [← hmove, getElem?_deleted hle hstop hout]
    exact h s hmem m hh

theorem Stands.set (h : r.Stands ls P) {n : Nat} {a b : α} (ha : ls[n]? = some a)
    (hab : ∀ id kind, P id kind a → P id kind b) : r.Stands (ls.set n b) P := by
  intro s hs m hm
  obtain ⟨c, hc, hp⟩ := h s hs m hm
  by_cases hnm : n = m
  · subst hnm
    rw [ha, Option.some.injEq] at hc
    subst hc
    have hlt := (List.getElem?_eq_some_iff.mp ha).1
    exact ⟨b, List.getElem?_set_self hlt, hab _ _ hp⟩
  · exact ⟨c, by rw [List.getElem?_set_ne hnm, hc], hp⟩

theorem Stands.add (h : r.Stands ls P) {kind : SubjectKind} {n : Nat} {a : α}
    (hn : ls[n]? = some a) (ha : P r.nextId kind a) (parent : Option SubjectId) :
    (r.add kind (.line n) parent).Stands ls P := by
  intro s hs m hm
  rcases mem_insertOrdered.mp hs with rfl | hs
  · simp only [Handle.line.injEq] at hm
    exact ⟨a, hm ▸ hn, ha⟩
  · exact h s hs m hm

end Registry
end SpriteConfig
