import SpriteConfig.Proofs.Frame
/-!
# Lookups after a deletion

When lines are deleted, the others stay in their order, and a lookup sees those that it would have
seen if the deleted lines had defined nothing. So a lookup finds what it has found before, as long
as the deleted lines hide nothing from it and it found none of them.
-/
namespace SpriteConfig

/-- The number that line `n` had before `count` lines from number `start` on were deleted. -/
def originFrom (start count n : Nat) : Nat := if start ≤ n then n + count else n

/-- A handle as it was before `count` lines from number `start` on were deleted. -/
def Handle.origin (start count : Nat) : Handle → Handle
  | root => root
  | line n => line (originFrom start count n)

/-- Whether a line is one of `count` lines from number `start` on. -/
def Within (start count i : Nat) : Prop := start ≤ i ∧ i < start + count

section Origins

variable {start count m n : Nat}

theorem originFrom_lt_originFrom_iff :
    originFrom start count m < originFrom start count n ↔ m < n := by
  rw [originFrom, originFrom]
  split <;> split <;> omega

theorem not_within_originFrom : ¬ Within start count (originFrom start count n) := by
  rw [Within, originFrom]
  split <;> omega

theorem exists_originFrom (hn : ¬ Within start count n) : ∃ m, originFrom start count m = n := by
  rw [Within] at hn
  rcases Nat.lt_or_ge n start with hlt | hge
  · exact ⟨n, by rw [originFrom, if_neg (by omega)]⟩
  · exact ⟨n - count, by rw [originFrom, if_pos (by omega)]; omega⟩

theorem Handle.origin_next_le_iff {g : Handle} :
    (g.origin start count).next ≤ originFrom start count n ↔ g.next ≤ n := by
  cases g with
  | root => exact iff_of_true (Nat.zero_le _) (Nat.zero_le _)
  | line m => exact originFrom_lt_originFrom_iff

theorem Handle.exists_origin {h : Handle} (hout : ∀ n, h = .line n → ¬ Within start count n) :
    ∃ g : Handle, g.origin start count = h := by
  cases h with
  | root => exact ⟨.root, rfl⟩
  | line n =>
    obtain ⟨m, rfl⟩ := exists_originFrom (hout n rfl)
    exact ⟨.line m, rfl⟩

theorem Handle.not_within_of_origin {g : Handle} (hg : g.origin start count = .line n) :
    ¬ Within start count n := by
  cases g with
  | root => cases hg
  | line m =>
    obtain rfl := Handle.line.inj hg
    exact not_within_originFrom

end Origins

namespace Registry

variable {r : Registry} {start count : Nat}

theorem handle?_deleteLines (hr : (r.subjects.map Subject.id).Nodup) {s : SubjectId} {g : Handle}
    (hs : r.handle? s = some (g.origin start count)) :
    (r.deleteLines start (start + count)).handle? s = some g := by
  obtain ⟨subject, hmem, rfl, hhandle⟩ := exists_of_handle? hs
  have hkept : subject.id ∉ r.gone start (start + count) := by
    intro hgone
    obtain ⟨other, hother, hid⟩ := List.mem_map.mp hgone
    obtain ⟨hother, hin⟩ := List.mem_filter.mp hother
    obtain rfl := List.inj_on_of_nodup_map hr hother hmem hid
    cases hline : other.handle with
    | root => simp [standsIn, hline] at hin
    | line n =>
      simp only [standsIn, hline, Bool.and_eq_true, decide_eq_true_eq] at hin
      exact Handle.not_within_of_origin (hhandle.symm.trans hline) hin
  have hnodup : ((r.deleteLines start (start + count)).subjects.map Subject.id).Nodup := by
    rw [subjects_deleteLines, List.map_map]
    exact hr.sublist (List.filter_sublist.map Subject.id)
  have hmoved := handle?_of_mem hnodup (mem_deleteLines.mpr ⟨subject, hmem, hkept, rfl⟩)
  refine hmoved.trans (congrArg some ?_)
  simp only [moveAfter, hhandle]
  cases g with
  | root => rfl
  | line n =>
    simp only [Handle.origin, originFrom]
    split <;> split <;> congr <;> omega

end Registry

/-- Whether lines are what is left of other lines without `count` of them from number `start` on. -/
def DeletedAt (ls ls' : List Line) (start count : Nat) : Prop :=
  ∀ n, ls'[n]? = ls[originFrom start count n]?

theorem deletedAt_take_drop {ls : List Line} {start count : Nat}
    (hle : start + count ≤ ls.length) :
    DeletedAt ls (ls.take start ++ ls.drop (start + count)) start count := by
  intro n
  have hout : originFrom start count n < start ∨ start + count ≤ originFrom start count n := by
    rw [originFrom]
    split <;> omega
  have hget := getElem?_deleted (Nat.le_add_right start count) hle hout
  have hnumber : (if start + count ≤ originFrom start count n then
      originFrom start count n - (start + count - start) else originFrom start count n) = n := by
    rw [originFrom]
    split <;> split <;> omega
  rwa [hnumber] at hget

/-- Line `i` would be direct for a handle if the lines that are `gone` defined nothing. -/
structure DirectWithout (ls : List Line) (gone : Nat → Prop) (h : Handle) (i : Nat) (l : Line) :
    Prop where
  line_eq : ls[i]? = some l
  isDefinition : l.isDefinition = true
  next_le : h.next ≤ i
  deeper : ∀ n own, h = .line n → ls[n]? = some own → own.level < l.level
  outermost : ∀ j m, h.next ≤ j → j < i → ¬ gone j → ls[j]? = some m → m.isDefinition = true →
    l.level ≤ m.level

/-- Line `i` would be common around line `n` if the lines that are `gone` defined nothing. -/
structure CommonWithout (ls : List Line) (gone : Nat → Prop) (n i : Nat) (l : Line) : Prop where
  line_eq : ls[i]? = some l
  isDefinition : l.isDefinition = true
  lt : i < n
  shallower : ∀ own, ls[n]? = some own → l.level < own.level
  outermost : ∀ j m, i < j → j < n → ¬ gone j → ls[j]? = some m → m.isDefinition = true →
    l.level ≤ m.level

section Deletions

variable {ls ls' : List Line} {start count i n : Nat} {g h : Handle} {l : Line}
  {gone : Nat → Prop}

theorem DirectLine.without (hl : DirectLine ls h i l) (gone : Nat → Prop) :
    DirectWithout ls gone h i l :=
  ⟨hl.line_eq, hl.isDefinition, hl.next_le, hl.deeper, fun j m hj hlt _ => hl.outermost j m hj hlt⟩

theorem CommonLine.without (hl : CommonLine ls n i l) (gone : Nat → Prop) :
    CommonWithout ls gone n i l :=
  ⟨hl.line_eq, hl.isDefinition, hl.lt, hl.shallower, fun j m hj hlt _ => hl.outermost j m hj hlt⟩

theorem DeletedAt.forall_between_iff (hdel : DeletedAt ls ls' start count) (P : Line → Prop)
    (stop : Nat) {first first' : Nat}
    (hfirst : ∀ j, first ≤ originFrom start count j ↔ first' ≤ j) :
    (∀ j m, first' ≤ j → j < stop → ls'[j]? = some m → P m) ↔
      ∀ j m, first ≤ j → j < originFrom start count stop → ¬ Within start count j →
        ls[j]? = some m → P m := by
  constructor
  · intro hall j m hj hlt hout hm
    obtain ⟨j, rfl⟩ := exists_originFrom hout
    exact hall j m ((hfirst j).mp hj) (originFrom_lt_originFrom_iff.mp hlt) ((hdel j).trans hm)
  · intro hall j m hj hlt hm
    exact hall _ m ((hfirst j).mpr hj) (originFrom_lt_originFrom_iff.mpr hlt) not_within_originFrom
      ((hdel j).symm.trans hm)

/-- After a deletion a line is direct if it would have been direct without the deleted lines. -/
theorem DeletedAt.directLine_iff (hdel : DeletedAt ls ls' start count) :
    DirectLine ls' g i l ↔
      DirectWithout ls (Within start count) (g.origin start count) (originFrom start count i)
        l := by
  have hbetween := hdel.forall_between_iff (fun m => m.isDefinition = true → l.level ≤ m.level) i
    fun j => Handle.origin_next_le_iff (g := g)
  constructor
  · intro hl
    refine ⟨(hdel i).symm.trans hl.line_eq, hl.isDefinition,
      Handle.origin_next_le_iff.mpr hl.next_le, fun n own hn hown => ?_, hbetween.mp hl.outermost⟩
    cases g with
    | root => cases hn
    | line m =>
      obtain rfl := Handle.line.inj hn
      exact hl.deeper m own rfl ((hdel m).trans hown)
  · intro hl
    refine ⟨(hdel i).trans hl.line_eq, hl.isDefinition, Handle.origin_next_le_iff.mp hl.next_le, ?_,
      hbetween.mpr hl.outermost⟩
    rintro n own rfl hown
    exact hl.deeper _ own rfl ((hdel n).symm.trans hown)

theorem DeletedAt.commonLine_iff (hdel : DeletedAt ls ls' start count) :
    CommonLine ls' n i l ↔
      CommonWithout ls (Within start count) (originFrom start count n) (originFrom start count i)
        l := by
  have hfirst : ∀ j, originFrom start count i + 1 ≤ originFrom start count j ↔ i + 1 ≤ j :=
    fun _ => originFrom_lt_originFrom_iff
  have hbetween :=
    hdel.forall_between_iff (fun m => m.isDefinition = true → l.level ≤ m.level) n hfirst
  constructor
  · intro hl
    refine ⟨(hdel i).symm.trans hl.line_eq, hl.isDefinition, originFrom_lt_originFrom_iff.mpr hl.lt,
      fun own hown => ?_, hbetween.mp hl.outermost⟩
    exact hl.shallower own ((hdel n).trans hown)
  · intro hl
    refine ⟨(hdel i).trans hl.line_eq, hl.isDefinition, originFrom_lt_originFrom_iff.mp hl.lt,
      fun own hown => ?_, hbetween.mpr hl.outermost⟩
    exact hl.shallower own ((hdel n).symm.trans hown)

end Deletions

namespace Document

variable {d d' : Document} {start count n : Nat} {g : Handle} {name : Text} {s : SubjectId}
  {found : Option (Line × Nat)}

def withoutLines (d : Document) (start stop : Nat) : Document :=
  { d with
    lines := d.lines.take start ++ d.lines.drop stop
    registry := d.registry.deleteLines start stop }

theorem deleteLines_eq {stop : Nat} (hle : start ≤ stop) (hstop : stop ≤ d.lines.length) :
    d.deleteLines start stop = .ok (d.withoutLines start stop) :=
  if_pos ⟨hle, hstop⟩

theorem withoutLines_self (d : Document) (start : Nat) : d.withoutLines start start = d := by
  rw [withoutLines, List.take_append_drop, Registry.deleteLines, if_neg (Nat.lt_irrefl _)]

theorem deletedAt_withoutLines (hstop : start + count ≤ d.lines.length) :
    DeletedAt d.lines (d.withoutLines start (start + count)).lines start count :=
  deletedAt_take_drop hstop

theorem inside_of_origin (hdel : DeletedAt d.lines d'.lines start count)
    (hg : (g.origin start count).Inside d) : g.Inside d' := by
  rintro n rfl
  have hlt := hg _ rfl
  have hget := (hdel n).trans (List.getElem?_eq_getElem hlt)
  exact (List.getElem?_eq_some_iff.mp hget).1

/-- What a lookup finds after a deletion, it has found before, if it has seen that line and no
deleted line with the name. -/
theorem findDirect?_of_deleted (hdel : DeletedAt d.lines d'.lines start count)
    (hg : (g.origin start count).Inside d) (hfound : d'.findDirect? g name = .ok found)
    (hsame : ∀ l j, found = some (l, j) →
      DirectWithout d.lines (Within start count) (g.origin start count) (originFrom start count j)
        l → DirectLine d.lines (g.origin start count) (originFrom start count j) l)
    (hgone : ∀ i l, Within start count i → DirectLine d.lines (g.origin start count) i l →
      l.definition ≠ name) :
    d.findDirect? (g.origin start count) name =
      .ok (found.map fun x => (x.1, originFrom start count x.2)) := by
  have hg' := inside_of_origin hdel hg
  obtain ⟨xs, hxs, henum⟩ := exists_enumerates_direct hg
  obtain ⟨ys, hys, henum'⟩ := exists_enumerates_direct hg'
  obtain rfl := Except.ok.inj ((findDirect?_of_directAt hys name).symm.trans hfound)
  rw [findDirect?_of_directAt hxs, Except.ok.injEq]
  apply henum'.findDefinition?_eq_map_of_found henum fun m n => Nat.lt_asymm
  · intro m n hlt
    exact originFrom_lt_originFrom_iff.mp hlt
  · intro i l hname hl
    have hout : ¬ Within start count i := fun hin => hgone i l hin hl hname
    obtain ⟨j, rfl⟩ := exists_originFrom hout
    exact ⟨j, rfl, hdel.directLine_iff.mpr (hl.without _)⟩
  · intro l j hlj
    have hl := ((findDirect?_eq_some_iff hg').mp (hlj ▸ hfound)).1
    exact hsame l j hlj (hdel.directLine_iff.mp hl)

theorem findCommon?_of_deleted (hdel : DeletedAt d.lines d'.lines start count)
    (hn : originFrom start count n < d.lines.length)
    (hfound : d'.findCommon? (.line n) name = .ok found)
    (hsame : ∀ l j, found = some (l, j) →
      CommonWithout d.lines (Within start count) (originFrom start count n)
        (originFrom start count j) l →
      CommonLine d.lines (originFrom start count n) (originFrom start count j) l)
    (hgone : ∀ i l, Within start count i → CommonLine d.lines (originFrom start count n) i l →
      l.definition ≠ name) :
    d.findCommon? (.line (originFrom start count n)) name =
      .ok (found.map fun x => (x.1, originFrom start count x.2)) := by
  have hn' := inside_of_origin (g := .line n) hdel (Handle.inside_line hn) n rfl
  obtain ⟨xs, hxs, henum⟩ := exists_enumerates_common hn
  obtain ⟨ys, hys, henum'⟩ := exists_enumerates_common hn'
  obtain rfl := Except.ok.inj ((findCommon?_of_commonAt hys name).symm.trans hfound)
  rw [findCommon?_of_commonAt hxs, Except.ok.injEq]
  apply henum'.findDefinition?_eq_map_of_found henum fun m n => Nat.lt_asymm
  · intro i j hlt
    exact originFrom_lt_originFrom_iff.mp hlt
  · intro i l hname hl
    have hout : ¬ Within start count i := fun hin => hgone i l hin hl hname
    obtain ⟨j, rfl⟩ := exists_originFrom hout
    exact ⟨j, rfl, hdel.commonLine_iff.mpr (hl.without _)⟩
  · intro l j hlj
    have hl := ((findCommon?_eq_some_iff hn').mp (hlj ▸ hfound)).1
    exact hsame l j hlj (hdel.commonLine_iff.mp hl)

variable (hs : d.registry.handle? s = some (g.origin start count))
  (hs' : d'.registry.handle? s = some g)

include hs hs'

theorem direct?_of_deleted (hfound' : d'.findDirect? g name = .ok found)
    (hfound : d.findDirect? (g.origin start count) name =
      .ok (found.map fun x => (x.1, originFrom start count x.2))) :
    d'.direct? s name = d.direct? s name := by
  rw [direct?_of_handle? hs' hfound', direct?_of_handle? hs hfound, foundParameters_map]

theorem common?_of_deleted
    (hfound : ∀ n found, g = .line n → d'.findCommon? (.line n) name = .ok found →
      d.findCommon? (.line (originFrom start count n)) name =
        .ok (found.map fun x => (x.1, originFrom start count x.2)))
    (hg : g.Inside d') : d'.common? s name = d.common? s name := by
  cases g with
  | root => rw [common?_of_root hs, common?_of_root hs']
  | line n =>
    obtain ⟨found, hfound', -⟩ := exists_findCommon? hg name
    rw [common?_of_handle? hs' hfound', common?_of_handle? hs (hfound n found rfl hfound'),
      foundParameters_map]

theorem ownParameters?_of_deleted (hdel : DeletedAt d.lines d'.lines start count) :
    d'.ownParameters? s = d.ownParameters? s := by
  have hown : d'.ownLine? s = d.ownLine? s := by
    cases g with
    | root => rw [ownLine?_of_root hs, ownLine?_of_root hs']
    | line n =>
      rw [ownLine?_of_line hs, ownLine?_of_line hs']
      exact hdel n
  rw [ownParameters?, ownParameters?, hown]

end Document
end SpriteConfig
