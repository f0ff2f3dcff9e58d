import SpriteConfig.Proofs.Uncovered
/-!
# Whether a new layout takes effect

A grid that is given to an input is always written, but the layout that the input has afterwards is
the most important one among its direct properties. So the grid takes effect if its line is a direct
property and nothing more important is left when the line of the old layout has gone: neither a
second line of a more important layout, nor one that the deleted line has hidden.
-/
namespace SpriteConfig

open List (Forall₂)

theorem find?_eq_some_iff_takeWhile {α : Type} [DecidableEq α] {p : α → Bool} {as : List α}
    {a : α} :
    as.find? p = some a ↔ a ∈ as ∧ p a = true ∧ ∀ b ∈ as.takeWhile (· ≠ a), p b = false := by
  induction as with
  | nil => simp
  | cons b as ih =>
    by_cases hab : b = a
    · subst hab
      cases hb : p b with
      | true => simp [hb]
      | false =>
        rw [List.find?_cons_of_neg (by simp [hb]), ih]
        simp [hb]
    · rw [List.takeWhile_cons_of_pos (by simpa using hab)]
      cases hb : p b with
      | true => simp [hb, hab]
      | false =>
        rw [List.find?_cons_of_neg (by simp [hb]), ih]
        simp [hb, Ne.symm hab]

namespace Layout

def grids : List Layout := [grid, gridVertical, gridCells, gridCellsVertical]

def Outranks (k new : Layout) : Prop := k ∈ properties.takeWhile (· ≠ new)

variable {k new : Layout}

theorem Outranks.ne (h : k.Outranks new) : k ≠ new := by
  have hall := List.all_eq_true.mp (List.all_takeWhile (p := fun b => decide (b ≠ new))) k h
  simpa using hall

theorem mem_properties_of_mem_grids (h : new ∈ grids) : new ∈ properties :=
  List.mem_cons_of_mem atlas h

end Layout

section Edits

variable {ls ls' : List Line} {new : Line} {i n q : Nat}

theorem InsertedAt.take_eq (hnew : InsertedAt ls ls' i new) (hn : n ≤ i) :
    ls'.take n = ls.take n := by
  apply List.ext_getElem?
  intro j
  rw [List.getElem?_take, List.getElem?_take]
  split
  · next hj =>
    rw [← hnew.getElem?_shiftFrom j, shiftFrom, if_neg (Nat.not_le_of_lt (hj.trans_le hn))]
  · rfl

theorem InsertedAt.deletedAt {ms ms' : List Line} (hnew : InsertedAt ls ls' i new) (hiq : i ≤ q)
    (hdel : DeletedAt ls ms q 1) (hdel' : DeletedAt ls' ms' (q + 1) 1) :
    InsertedAt ms ms' i new := by
  constructor
  · intro m
    have hnumber : originFrom (q + 1) 1 (shiftFrom i m) = shiftFrom i (originFrom q 1 m) := by
      simp only [originFrom, shiftFrom]
      split_ifs <;> omega
    rw [hdel', hnumber, hnew.getElem?_shiftFrom, hdel]
  · rw [hdel', originFrom, if_neg (by omega), hnew.getElem?_self]

end Edits

namespace Document

variable {d d' left written : Document} {s : SubjectId} {n : Nat} {own : Line} {indent name : Text}
  {k current new : Layout} {values : List Text} {found : Option (Line × Nat)}

/-- Whether a layout is a direct property of the subject on a line. -/
def HasLayout (d : Document) (n : Nat) (k : Layout) : Prop :=
  ∃ i l, DirectLine d.lines (.line n) i l ∧ l.definition = k.token

theorem hasLayout_iff_isSome (hn : n < d.lines.length)
    (hfound : d.findDirect? (.line n) k.token = .ok found) :
    d.HasLayout n k ↔ found.isSome = true := by
  obtain ⟨xs, hxs, henum⟩ := exists_enumerates_direct (Handle.inside_line hn)
  obtain rfl := Except.ok.inj ((findDirect?_of_directAt hxs k.token).symm.trans hfound)
  rw [← not_iff_not, Bool.not_eq_true, Option.isSome_eq_false_iff, Option.isNone_iff_eq_none,
    henum.findDefinition?_eq_none_iff]
  simp only [HasLayout, not_exists, not_and, ne_eq]

theorem layout_eq_iff_of_hasLayout (hs : d.registry.handle? s = some (.line n))
    (hn : n < d.lines.length) (hnew : new ∈ Layout.properties) (hhas : d.HasLayout n new) :
    d.layout s = .ok new ↔ ∀ k : Layout, k.Outranks new → ¬ d.HasLayout n k := by
  obtain ⟨xs, hxs, -⟩ := exists_enumerates_direct (Handle.inside_line hn)
  have hiff : ∀ k : Layout, d.HasLayout n k ↔ (findDefinition? k.token xs).isSome = true :=
    fun k => hasLayout_iff_isSome hn (findDirect?_of_directAt hxs k.token)
  have hlayout : d.layout s = .ok new ↔
      Layout.properties.find? (fun k => (findDefinition? k.token xs).isSome) = some new := by
    simp only [layout, hs, hxs, Checked.ok_bind]
    cases hfind : Layout.properties.find? fun k => (findDefinition? k.token xs).isSome with
    | some k =>
      exact ⟨fun h => congrArg some (Except.ok.inj h), fun h => congrArg _ (Option.some.inj h)⟩
    | none =>
      have hnone := List.find?_eq_none.mp hfind new hnew
      exact absurd ((hiff new).mp hhas) hnone
  rw [hlayout, find?_eq_some_iff_takeWhile]
  simp only [hnew, (hiff new).mp hhas, true_and, hiff, Bool.not_eq_true]
  exact Iff.rfl

theorem layout_congr (hs : d.registry.handle? s = some (.line n))
    (hs' : d'.registry.handle? s = some (.line n)) (hn : n < d.lines.length)
    (hnone : ∀ i l, ¬ DirectLine d.lines (.line n) i l)
    (hnone' : ∀ i l, ¬ DirectLine d'.lines (.line n) i l)
    (htake : d'.lines.take (n + 1) = d.lines.take (n + 1)) : d'.layout s = d.layout s := by
  have hempty : ∀ {e : Document}, n < e.lines.length →
      (∀ i l, ¬ DirectLine e.lines (.line n) i l) → e.directAt (.line n) = .ok [] := by
    intro e hn hnone
    obtain ⟨xs, hxs, henum⟩ := exists_enumerates_direct (Handle.inside_line hn)
    obtain rfl : xs = [] := by
      refine List.eq_nil_iff_forall_not_mem.mpr fun x hx => ?_
      exact hnone x.2 x.1 ((henum.mem_iff x.1 x.2).mp hx)
    exact hxs
  have hown : d'.lines[n]? = d.lines[n]? := by
    have hget := congrArg (·[n]?) htake
    simpa only [List.getElem?_take, Nat.lt_succ_self, if_true] using hget
  have hn' : n < d'.lines.length :=
    (List.getElem?_eq_some_iff.mp (hown.trans (List.getElem?_eq_getElem hn))).1
  have hcommon : d'.commonAt (.line n) = d.commonAt (.line n) := by
    have hbefore : d'.lines.take n = d.lines.take n := by
      have htake' := congrArg (List.take n) htake
      simpa only [List.take_take, Nat.min_eq_left (Nat.le_succ n)] using htake'
    rw [commonAt, commonAt, line, line, hown, hbefore]
  simp only [layout, hs, hs', hempty hn hnone, hempty hn' hnone', Checked.ok_bind, hcommon]

/-- The document without the property of a layout that gives way to another one. The sprites of an
input that lists more than one stay. -/
def withoutLayout (d : Document) (input : SubjectId) (current : Layout) : Checked Document :=
  if current ≠ .sprite ∨ (d.registry.sprites input).length = 1 then
    Prod.fst <$> d.deleteProperty input current.token
  else .ok d

/-- How a document with a new layout relates to what is left of the old one. -/
inductive Relaid (d left d' : Document) (n : Nat) (new : Layout) (indent : Text) : Prop
  /-- The line of the layout has been written anew. -/
  | rewritten (hhas : d.HasLayout n new) (halike : Forall₂ Line.Alike left.lines d'.lines)
  /-- The layout has got a line right below the subject. -/
  | inserted (hhas : ¬ d.HasLayout n new) (values : List Text)
    (hinserted : InsertedAt left.lines d'.lines (n + 1) (Line.make indent new.token values))

/-- Whether a layout of the subject on line `n` is in effect when it has been written, `left` being
the document without the old layout: it has a line already or gets one that is nested deeper than
the subject, and nothing more important is direct beside that line. -/
structure Prevails (d left : Document) (n : Nat) (own : Line) (indent : Text) (new : Layout) :
    Prop where
  direct : d.HasLayout n new ∨ own.level < Text.byteLength indent
  highest : ∀ k : Layout, k.Outranks new → ∀ i l, DirectLine left.lines (.line n) i l →
    d.HasLayout n new ∨ l.level ≤ Text.byteLength indent → l.definition ≠ k.token

theorem hasLayout_iff_of_alike (hn : (Handle.line n).Defined d)
    (halike : Forall₂ Line.Alike d.lines d'.lines) : d'.HasLayout n k ↔ d.HasLayout n k := by
  obtain ⟨found, hfound, -⟩ := exists_findDirect? hn.inside k.token
  obtain ⟨found', hfound', hrel⟩ := rel_findDirect? (fun h => h) halike hn hfound
  have hn' := hn.inside.of_length_eq halike.length_eq.symm
  rw [hasLayout_iff_isSome (hn.inside n rfl) hfound, hasLayout_iff_isSome (hn' n rfl) hfound']
  cases hrel <;> rfl

/-- Right below a subject a new line is direct if it is nested deeper than the subject, and of the
other lines those stay direct that are nested no deeper than the new one. -/
theorem directLine_iff_of_inserted (hown : d.lines[n]? = some own) {j : Nat} {l : Line}
    (hnew : InsertedAt d.lines d'.lines (n + 1) (Line.make indent new.token values)) :
    DirectLine d'.lines (.line n) j l ↔
      j = n + 1 ∧ l = Line.make indent new.token values ∧ own.level < Text.byteLength indent ∨
        ∃ i, j = shiftFrom (n + 1) i ∧ DirectLine d.lines (.line n) i l ∧
          l.level ≤ Text.byteLength indent := by
  have hd : (Line.make indent new.token values).isDefinition = true :=
    Line.isDefinition_make (by cases new <;> decide) values
  have hown' : d'.lines[n]? = some own := by
    rw [← hown, ← hnew.getElem?_shiftFrom, shiftFrom_succ_self]
  have hshift : ∀ {i}, DirectLine d'.lines (.line n) (shiftFrom (n + 1) i) l ↔
      DirectLine d.lines (.line n) i l ∧ l.level ≤ Text.byteLength indent := by
    intro i
    have hbelow : InsertedAt d.lines d'.lines (Handle.line n).next
        (Line.make indent new.token values) := hnew
    have hiff := hbelow.directLine_shiftFrom_iff (h := .line n) (i := i) (l := l)
    rw [Handle.moved_self, Line.make_level] at hiff
    exact hiff.trans (and_congr_right fun hl =>
      ⟨fun hle => hle (Nat.le_refl _) hl.next_le hd, fun hle _ _ _ => hle⟩)
  constructor
  · intro hl
    rcases eq_or_exists_shiftFrom (n + 1) j with rfl | ⟨i, rfl⟩
    · obtain rfl := Option.some.inj (hnew.getElem?_self.symm.trans hl.line_eq)
      have hdeeper := hl.deeper n own rfl hown'
      rw [Line.make_level] at hdeeper
      exact .inl ⟨rfl, rfl, hdeeper⟩
    · exact .inr ⟨i, rfl, hshift.mp hl⟩
  · rintro (⟨rfl, rfl, hdeeper⟩ | ⟨i, rfl, hl⟩)
    · refine ⟨hnew.getElem?_self, hd, Nat.le_refl _, ?_, fun j m hj hlt => ?_⟩
      · rintro _ own' ⟨⟩ hown''
        obtain rfl : own = own' := Option.some.inj (hown'.symm.trans hown'')
        rwa [Line.make_level]
      · exact absurd hlt (Nat.not_lt_of_le hj)
    · exact hshift.mpr hl

theorem hasLayout_withoutLines {q : Nat} {l : Line} (hl : DirectLine d.lines (.line n) q l)
    (hne : l.definition ≠ k.token) (hhas : d.HasLayout n k) :
    (d.withoutLines q (q + 1)).HasLayout n k := by
  obtain ⟨i, m, hm, hname⟩ := hhas
  have hq := (List.getElem?_eq_some_iff.mp hl.line_eq).1
  have hout : ¬ Within q 1 i := by
    rw [within_one_eq]
    rintro rfl
    exact hne (Option.some.inj (hl.line_eq.symm.trans hm.line_eq) ▸ hname)
  obtain ⟨j, rfl⟩ := exists_originFrom hout
  have hself : (Handle.line n).origin q 1 = .line n :=
    congrArg Handle.line (if_neg (Nat.not_le_of_lt hl.next_le))
  refine ⟨j, m, (deletedAt_withoutLines hq).directLine_iff.mpr ?_, hname⟩
  rw [hself]
  exact hm.without _

def LeftOf (d left : Document) (n : Nat) (current : Layout) : Prop :=
  left = d ∨ ∃ q l, DirectLine d.lines (.line n) q l ∧ l.definition = current.token ∧
    left = d.withoutLines q (q + 1)

theorem LeftOf.getElem?_eq (hleft : d.LeftOf left n current) : left.lines[n]? = d.lines[n]? := by
  rcases hleft with rfl | ⟨q, l, hl, -, rfl⟩
  · rfl
  · have hq := (List.getElem?_eq_some_iff.mp hl.line_eq).1
    rw [deletedAt_withoutLines hq n, originFrom, if_neg (Nat.not_le_of_lt hl.next_le)]

theorem LeftOf.hasLayout (hleft : d.LeftOf left n current) (hne : current ≠ k)
    (hhas : d.HasLayout n k) : left.HasLayout n k := by
  rcases hleft with rfl | ⟨q, l, hl, hname, rfl⟩
  · exact hhas
  · refine hasLayout_withoutLines hl (fun heq => hne ?_) hhas
    exact Layout.token_inj.mp (hname.symm.trans heq)

theorem layout_eq_iff_of_rewritten (hhas : d.HasLayout n new)
    (halike : Forall₂ Line.Alike left.lines d'.lines) (hleft : d.LeftOf left n current)
    (hown : left.lines[n]? = some own) (hd : own.isDefinition = true)
    (hs' : d'.registry.handle? s = some (.line n)) (hne : current ≠ new)
    (hnew : new ∈ Layout.properties) :
    d'.layout s = .ok new ↔ d.Prevails left n own indent new := by
  have hdefined : (Handle.line n).Defined left := by
    rintro _ ⟨⟩
    exact ⟨own, hown, hd⟩
  have hn' := hdefined.inside.of_length_eq halike.length_eq.symm n rfl
  have hiff : ∀ k : Layout, d'.HasLayout n k ↔ left.HasLayout n k :=
    fun k => hasLayout_iff_of_alike hdefined halike
  rw [layout_eq_iff_of_hasLayout hs' hn' hnew ((hiff new).mpr (hleft.hasLayout hne hhas))]
  constructor
  · intro hnone
    refine ⟨.inl hhas, fun k hk i l hl _ hname => hnone k hk ?_⟩
    exact (hiff k).mpr ⟨i, l, hl, hname⟩
  · intro hprevails k hk hhas'
    obtain ⟨i, l, hl, hname⟩ := (hiff k).mp hhas'
    exact hprevails.highest k hk i l hl (.inl hhas) hname

/-- A new line that is nested deeper than the subject is direct, beside the lines that are no
deeper than it. -/
theorem layout_eq_iff_of_inserted (hhas : ¬ d.HasLayout n new) {values : List Text}
    (hinserted : InsertedAt left.lines d'.lines (n + 1) (Line.make indent new.token values))
    (hown : left.lines[n]? = some own) (hdeeper : own.level < Text.byteLength indent)
    (hs' : d'.registry.handle? s = some (.line n)) (hnew : new ∈ Layout.properties) :
    d'.layout s = .ok new ↔ d.Prevails left n own indent new := by
  have hdirect := fun {j l} => directLine_iff_of_inserted (j := j) (l := l) hown hinserted
  have hself : d'.HasLayout n new :=
    ⟨n + 1, _, hdirect.mpr (.inl ⟨rfl, rfl, hdeeper⟩), Line.make_definition _ _ _⟩
  have hn' : n < d'.lines.length :=
    Nat.lt_of_succ_lt (List.getElem?_eq_some_iff.mp hinserted.getElem?_self).1
  rw [layout_eq_iff_of_hasLayout hs' hn' hnew hself]
  constructor
  · intro hnone
    refine ⟨.inr hdeeper, fun k hk i l hl hle hname => hnone k hk ?_⟩
    exact ⟨_, l, hdirect.mpr (.inr ⟨i, rfl, hl, hle.resolve_left hhas⟩), hname⟩
  · rintro hprevails k hk ⟨j, l, hl, hname⟩
    rcases hdirect.mp hl with ⟨-, rfl, -⟩ | ⟨i, -, hl, hle⟩
    · rw [Line.make_definition, Layout.token_inj] at hname
      exact hk.ne hname.symm
    · exact hprevails.highest k hk i l hl (.inr hle) hname

/-- A layout that has been written is in effect exactly if it prevails. -/
theorem Relaid.layout_eq_iff (hrelaid : d.Relaid left d' n new indent)
    (hleft : d.LeftOf left n current) (hown : d.lines[n]? = some own)
    (hd : own.isDefinition = true) (hshaped : ∀ l ∈ d.lines, l.Shaped)
    (hindent : d.indentBelow (.line n) = .ok indent) (hs : d.registry.handle? s = some (.line n))
    (hs' : d'.registry.handle? s = some (.line n)) (hcurrent : d.layout s = .ok current)
    (hne : current ≠ new) (hnew : new ∈ Layout.properties) :
    d'.layout s = .ok new ↔ d.Prevails left n own indent new := by
  have hn := (List.getElem?_eq_some_iff.mp hown).1
  have hownLeft : left.lines[n]? = some own := hleft.getElem?_eq.trans hown
  cases hrelaid with
  | rewritten hhas halike =>
    exact layout_eq_iff_of_rewritten hhas halike hleft hownLeft hd hs' hne hnew
  | inserted hhas values hinserted =>
    by_cases hdeeper : own.level < Text.byteLength indent
    · exact layout_eq_iff_of_inserted hhas hinserted hownLeft hdeeper hs' hnew
    · have hnone : ∀ i l, ¬ DirectLine d.lines (.line n) i l := by
        intro i l hl
        have hle := le_indentBelow hshaped hn hindent hl
        exact hdeeper ((hl.deeper n own rfl hown).trans_le hle)
      obtain rfl : left = d := hleft.resolve_right fun ⟨q, l, hl, _⟩ => hnone q l hl
      have hnone' : ∀ j l, ¬ DirectLine d'.lines (.line n) j l := by
        intro j l hl
        rcases (directLine_iff_of_inserted hown hinserted).mp hl with ⟨-, -, hlt⟩ | ⟨i, -, hl, -⟩
        · exact hdeeper hlt
        · exact hnone i l hl
      have hsame := layout_congr hs hs' hn hnone hnone' (hinserted.take_eq (Nat.le_refl _))
      rw [hsame, hcurrent]
      refine iff_of_false (fun heq => hne (Except.ok.inj heq)) fun hprevails => ?_
      exact hprevails.direct.elim hhas hdeeper

/-- The document without a line that was found, if one was. -/
def withoutFound (d : Document) (found : Option (Line × Nat)) : Document :=
  found.elim d fun x => d.withoutLines x.2 (x.2 + 1)

theorem fst_deleteProperty (hs : d.registry.handle? s = some (.line n)) (hn : n < d.lines.length)
    (hfound : d.findDirect? (.line n) name = .ok found) :
    Prod.fst <$> d.deleteProperty s name = .ok (d.withoutFound found) := by
  cases found with
  | none =>
    rw [deleteProperty, directLine?, hs]
    dsimp only
    rw [hfound]
    rfl
  | some x =>
    obtain ⟨hx, -, -⟩ := getElem?_of_findDirect? (Handle.inside_line hn) hfound
    rw [deleteProperty_eq_withoutLines hs hfound (List.getElem?_eq_some_iff.mp hx).1]
    rfl

theorem handle?_withoutFound (hcoherent : d.registry.Coherent d.lines)
    (hs : d.registry.handle? s = some (.line n)) (hn : n < d.lines.length)
    (hfound : d.findDirect? (.line n) name = .ok found) :
    (d.withoutFound found).registry.handle? s = some (.line n) := by
  cases found with
  | none => exact hs
  | some x =>
    have hx := ((findDirect?_eq_some_iff (Handle.inside_line hn)).mp hfound).1
    have hself : (Handle.line n).origin x.2 1 = .line n :=
      congrArg Handle.line (if_neg (Nat.not_le_of_lt hx.next_le))
    exact Registry.handle?_deleteLines hcoherent.nodup (hself.symm ▸ hs)

theorem leftOf_withoutFound (hn : n < d.lines.length)
    (hfound : d.findDirect? (.line n) current.token = .ok found) :
    d.LeftOf (d.withoutFound found) n current := by
  cases found with
  | none => exact .inl rfl
  | some x =>
    obtain ⟨hx, hname, -⟩ := (findDirect?_eq_some_iff (Handle.inside_line hn)).mp hfound
    exact .inr ⟨x.2, x.1, hx, hname, rfl⟩

theorem Relaid.exists_withoutFound (hrelaid : d.Relaid d written n new indent)
    (hdefined : (Handle.line n).Defined d) (hshaped : ∀ l ∈ d.lines, l.Shaped)
    (hindent : d.indentBelow (.line n) = .ok indent) (hne : current ≠ new)
    (hfound : d.findDirect? (.line n) current.token = .ok found) :
    ∃ found', written.findDirect? (.line n) current.token = .ok found' ∧
      d.Relaid (d.withoutFound found) (written.withoutFound found') n new indent := by
  cases hrelaid with
  | rewritten hhas halike =>
    obtain ⟨found', hfound', hrel⟩ := rel_findDirect? (fun h => h) halike hdefined hfound
    refine ⟨found', hfound', .rewritten hhas ?_⟩
    cases hrel with
    | none => exact halike
    | @some x y hxy =>
      obtain ⟨-, hnumber⟩ := hxy
      simp only [withoutFound, Option.elim_some, ← hnumber]
      exact List.rel_append (List.forall₂_take _ halike) (List.forall₂_drop _ halike)
  | inserted hhas values hinserted =>
    have hbelow : InsertedAt d.lines written.lines (Handle.line n).next
        (Line.make indent new.token values) := hinserted
    have hfound' := findDirect?_of_inserted (h := .line n) hbelow hdefined.inside
      (fun i l hl _ _ => by
        rw [Line.make_level]
        exact le_indentBelow hshaped (hdefined.inside n rfl) hindent hl)
      (fun heq => by
        rw [Line.make_definition, Layout.token_inj] at heq
        exact absurd heq.symm hne) hfound
    rw [Handle.moved_self] at hfound'
    refine ⟨_, hfound', .inserted hhas values ?_⟩
    cases found with
    | none => exact hinserted
    | some x =>
      have hx := ((findDirect?_eq_some_iff hdefined.inside).mp hfound).1
      have hnumber : shiftFrom (Handle.line n).next x.2 = x.2 + 1 := if_pos hx.next_le
      have hlen := (List.getElem?_eq_some_iff.mp hx.line_eq).1
      have hlen' : x.2 + 1 < written.lines.length := hnumber ▸ hinserted.shiftFrom_lt_length hlen
      simp only [withoutFound, Option.map_some, Option.elim_some, hnumber]
      exact hinserted.deletedAt hx.next_le (deletedAt_withoutLines hlen)
        (deletedAt_withoutLines hlen')

theorem Relaid.exists_deletion (hrelaid : d.Relaid d written n new indent)
    (hcoherent : d.registry.Coherent d.lines)
    (hcoherent' : written.registry.Coherent written.lines) (hshaped : ∀ l ∈ d.lines, l.Shaped)
    (hindent : d.indentBelow (.line n) = .ok indent) (hs : d.registry.handle? s = some (.line n))
    (hs' : written.registry.handle? s = some (.line n)) (hne : current ≠ new) :
    ∃ left d', Prod.fst <$> d.deleteProperty s current.token = .ok left ∧
      Prod.fst <$> written.deleteProperty s current.token = .ok d' ∧
      d.LeftOf left n current ∧ d.Relaid left d' n new indent ∧
      d'.registry.handle? s = some (.line n) := by
  have hdefined := defined_of_coherent hcoherent hs
  have hn := hdefined.inside n rfl
  have hn' := (defined_of_coherent hcoherent' hs').inside n rfl
  obtain ⟨found, hfound, -⟩ := exists_findDirect? hdefined.inside current.token
  obtain ⟨found', hfound', hrelaid'⟩ :=
    hrelaid.exists_withoutFound hdefined hshaped hindent hne hfound
  exact ⟨_, _, fst_deleteProperty hs hn hfound, fst_deleteProperty hs' hn' hfound',
    leftOf_withoutFound hn hfound, hrelaid', handle?_withoutFound hcoherent' hs' hn' hfound'⟩

theorem exists_indentBelow (hown : d.lines[n]? = some own) :
    ∃ indent, d.indentBelow (.line n) = .ok indent := by
  rw [indentBelow, block_eq hown, Checked.ok_bind]
  dsimp only
  split
  · exact ⟨_, rfl⟩
  · rw [line_eq hown]
    exact ⟨_, rfl⟩

theorem exists_relaid (hcoherent : d.registry.Coherent d.lines)
    (hshaped : ∀ l ∈ d.lines, l.Shaped) (hindent : d.indentBelow (.line n) = .ok indent)
    (hs : d.registry.handle? s = some (.line n)) (new : Layout) (values : List Text) :
    ∃ c written, d.writingOf (.line n) new.token values = .ok c ∧ d.Step c written ∧
      written.registry.Coherent written.lines ∧ written.registry.handle? s = some (.line n) ∧
      d.Relaid d written n new indent := by
  have hdefined := defined_of_coherent hcoherent hs
  have hn := hdefined.inside n rfl
  obtain ⟨found, hfound, -⟩ := exists_findDirect? hdefined.inside new.token
  have hhas := hasLayout_iff_isSome hn hfound
  cases found with
  | none =>
    have hwriting := writingOf_of_indentBelow hfound hindent values
    have hstep : d.Step (.insert (.line n) indent new.token values) _ :=
      .insert hdefined.inside.next_le
    refine ⟨_, _, hwriting, hstep, hstep.coherent hcoherent False.elim,
      handle?_of_writingOf hs hwriting hstep, .inserted ?_ values hstep.insertedAt⟩
    exact fun h => Bool.false_ne_true (hhas.mp h)
  | some x =>
    obtain ⟨hx, -, -⟩ := getElem?_of_findDirect? hdefined.inside hfound
    obtain ⟨l', hset, -, -⟩ :=
      (hshaped x.1 (List.mem_of_getElem? hx)).exists_setParameters values
    have hwriting := writingOf_of_findDirect? hfound values
    have hstep : d.Step (.rewrite x.2 values) _ := .rewrite hx hset
    refine ⟨_, _, hwriting, hstep, hstep.coherent hcoherent False.elim,
      handle?_of_writingOf hs hwriting hstep, .rewritten (hhas.mpr rfl) ?_⟩
    exact forall₂_set Line.Alike.refl hx (Line.alike_setParameters hset)

theorem fst_setLayout {input : Subject} {c : Change} (hfind : d.registry.find? s = some input)
    (hkind : input.kind = .input) (hcurrent : d.layout s = .ok current) (hne : current ≠ new)
    (hnew : new ∈ Layout.grids)
    (hwriting : d.writingOf input.handle new.token (new.initialParameters d.options) = .ok c)
    (hstep : d.Step c written) :
    Prod.fst <$> d.setLayout s new =
      if current ≠ .sprite ∨ (d.registry.sprites s).length = 1 then
        Prod.fst <$> written.deleteProperty s current.token
      else .ok written := by
  have hwritten : d.changeAll [c] = .ok written := by
    rw [changeAll_singleton, hstep.change_eq]
  have hgrid : new ≠ .sprite ∧ (new.initialParameters d.options).isEmpty = false := by
    simp only [Layout.grids, List.mem_cons, List.not_mem_nil, or_false] at hnew
    rcases hnew with rfl | rfl | rfl | rfl <;> exact ⟨by decide, rfl⟩
  have hwriting' : d.layoutWritingOf s input.handle new = .ok [c] := by
    simp only [layoutWritingOf, if_neg hgrid.1, hgrid.2, Bool.false_and, Bool.false_eq_true,
      if_false, hwriting]
    rfl
  have hset := perform_eq_changeAll d (.setLayout s new)
  have hdelete := perform_eq_changeAll written (.deleteProperty s current.token)
  simp only [perform, changesOf, hfind, if_pos hkind, hcurrent, Checked.ok_bind, if_neg hne,
    layoutReplacementOf, hwriting'] at hset hdelete
  rw [hset]
  split
  · rw [hwritten, Checked.ok_bind, hdelete]
    cases written.deletionOf s current.token with
    | error e => rfl
    | ok cs =>
      simp only [Checked.ok_bind, pure, Except.pure, changeAll_append, hwritten]
  · exact hwritten

theorem exists_withoutLayout (hs : d.registry.handle? s = some (.line n))
    (hn : n < d.lines.length) (current : Layout) :
    ∃ left, d.withoutLayout s current = .ok left := by
  obtain ⟨found, hfound, -⟩ := exists_findDirect? (Handle.inside_line hn) current.token
  rw [withoutLayout]
  split
  · exact ⟨_, fst_deleteProperty hs hn hfound⟩
  · exact ⟨d, rfl⟩

/-- When an input gets the layout of a grid in place of another one, the grid is in effect exactly
if it prevails. -/
theorem exists_setLayout_prevails_iff {input : Subject} (hcoherent : d.registry.Coherent d.lines)
    (hshaped : ∀ l ∈ d.lines, l.Shaped) (hfind : d.registry.find? s = some input)
    (hkind : input.kind = .input) (hhandle : input.handle = .line n)
    (hown : d.lines[n]? = some own) (hindent : d.indentBelow (.line n) = .ok indent)
    (hcurrent : d.layout s = .ok current) (hne : current ≠ new) (hnew : new ∈ Layout.grids) :
    ∃ left d' answer, d.withoutLayout s current = .ok left ∧ d.setLayout s new = .ok (d', answer) ∧
      (d'.layout s = .ok new ↔ d.Prevails left n own indent new) := by
  have hs : d.registry.handle? s = some (.line n) := hhandle ▸ Registry.handle?_of_find? hfind
  obtain ⟨own', hown', hdefinition⟩ := defined_of_coherent hcoherent hs n rfl
  obtain rfl : own = own' := Option.some.inj (hown.symm.trans hown')
  obtain ⟨c, written, hwriting, hstep, hcoherent', hs', hrelaid⟩ := exists_relaid hcoherent hshaped
    hindent hs new (new.initialParameters d.options)
  have hset := fst_setLayout hfind hkind hcurrent hne hnew (hhandle.symm ▸ hwriting) hstep
  obtain ⟨left, d', hleft, hd', hleftOf, hrelaid', hs''⟩ :
      ∃ left d', d.withoutLayout s current = .ok left ∧
        Prod.fst <$> d.setLayout s new = .ok d' ∧ d.LeftOf left n current ∧
        d.Relaid left d' n new indent ∧ d'.registry.handle? s = some (.line n) := by
    rw [withoutLayout, hset]
    split
    · exact hrelaid.exists_deletion hcoherent hcoherent' hshaped hindent hs hs' hne
    · exact ⟨d, written, rfl, rfl, .inl rfl, hrelaid, hs'⟩
  obtain ⟨⟨_, answer⟩, hset', rfl⟩ := Checked.map_eq_ok.mp hd'
  exact ⟨left, _, answer, hleft, hset', hrelaid'.layout_eq_iff hleftOf hown hdefinition hshaped
    hindent hs hs'' hcurrent hne (Layout.mem_properties_of_mem_grids hnew)⟩

theorem exists_layout_parse (source : Text) (options : Options) (s : SubjectId) :
    ∃ current, (parse source options).layout s = .ok current :=
  (valid_parse source Options.indents_default).exists_layout s

/-- When an input of a document that was just read is given the layout of a grid, the grid is in
effect exactly if it was before, or if it prevails. -/
theorem setLayout_prevails_iff {source : Text} {options : Options} {input : Subject}
    (hd : parse source options = d) (hfind : d.registry.find? s = some input)
    (hkind : input.kind = .input) (hnew : new ∈ Layout.grids) :
    ∃ n own current left indent d' answer, input.handle = .line n ∧ d.lines[n]? = some own ∧
      d.layout s = .ok current ∧ d.withoutLayout s current = .ok left ∧
      d.indentBelow (.line n) = .ok indent ∧ d.setLayout s new = .ok (d', answer) ∧
      (d'.layout s = .ok new ↔ current = new ∨ d.Prevails left n own indent new) := by
  have hcoherent : d.registry.Coherent d.lines :=
    hd ▸ Registry.coherent_ofLines (readSource source)
  have hshaped : ∀ l ∈ d.lines, l.Shaped := hd ▸ fun _ hl => shaped_of_mem_readLines hl
  obtain ⟨n, hhandle⟩ :=
    hcoherent.exists_handle_eq (Registry.mem_of_find? hfind).1 (by simp [hkind])
  have hs : d.registry.handle? s = some (.line n) := hhandle ▸ Registry.handle?_of_find? hfind
  obtain ⟨own, hown, -⟩ := defined_of_coherent hcoherent hs n rfl
  obtain ⟨indent, hindent⟩ := exists_indentBelow hown
  obtain ⟨current, hcurrent⟩ : ∃ current, d.layout s = .ok current :=
    hd ▸ exists_layout_parse source options s
  by_cases hsame : current = new
  · obtain ⟨left, hleft⟩ := exists_withoutLayout hs (List.getElem?_eq_some_iff.mp hown).1 current
    have hset : d.setLayout s new = .ok (d, false) := by
      simp only [setLayout, hfind, if_pos hkind, hcurrent, Checked.ok_bind, if_pos hsame]
      rfl
    exact ⟨n, own, current, left, indent, d, false, hhandle, hown, hcurrent, hleft, hindent, hset,
      iff_of_true (hsame ▸ hcurrent) (.inl hsame)⟩
  · obtain ⟨left, d', answer, hleft, hset, hiff⟩ := exists_setLayout_prevails_iff hcoherent hshaped
      hfind hkind hhandle hown hindent hcurrent hsame hnew
    exact ⟨n, own, current, left, indent, d', answer, hhandle, hown, hcurrent, hleft, hindent, hset,
      hiff.trans (or_iff_right hsame).symm⟩

/-- A grid prevails over the cells whose line goes, although that line has hidden a more important
layout, which stays hidden below the new line. -/
theorem setLayout_prevails_iff_nested :
    let d := parse "input a\n  grid-cells 1 1\n    atlas\n  trim none".toList
    Layout.grid ∈ Layout.grids ∧
      ∃ input n own left indent d' answer, d.registry.find? 1 = some input ∧
        input.kind = .input ∧ d.lines[n]? = some own ∧ d.withoutLayout 1 .gridCells = .ok left ∧
        d.setLayout 1 .grid = .ok (d', answer) ∧ d'.layout 1 = .ok .grid ∧
        d.Prevails left n own indent .grid := by
  intro d
  have hgrid : Layout.grid ∈ Layout.grids := by decide
  have hfind : d.registry.find? 1 = some ⟨1, .input, .line 0, some 0⟩ := by decide
  obtain ⟨n, own, current, left, indent, d', answer, -, hown, hcurrent, hleft, -, hset, hiff⟩ :=
    setLayout_prevails_iff (d := d) rfl hfind rfl hgrid
  have hcells : d.layout 1 = .ok .gridCells := by decide
  obtain rfl : current = .gridCells := Except.ok.inj (hcurrent.symm.trans hcells)
  have hlayout : (d.setLayout 1 .grid >>= fun r => r.1.layout 1) = .ok .grid := by decide
  rw [hset, Checked.ok_bind] at hlayout
  have hprevails := (hiff.mp hlayout).resolve_left (by decide)
  exact ⟨hgrid, _, n, own, left, indent, d', answer, hfind, rfl, hown, hleft, hset, hlayout,
    hprevails⟩

/-- Whether an input that is given a layout is said to have changed, and has another one. -/
def LayoutFails (d : Document) (input : SubjectId) (new : Layout) : Prop :=
  ∃ d' other, d.setLayout input new = .ok (d', true) ∧ d'.layout input = .ok other ∧ other ≠ new

theorem layoutFails_of_run (other : Layout)
    (hrun : (do
      let r ← d.setLayout s new
      let l ← r.1.layout s
      return (r.2, l)) = .ok (true, other)) (hne : other ≠ new) : d.LayoutFails s new := by
  obtain ⟨⟨d', answer⟩, hset, hrun⟩ := Checked.bind_eq_ok.mp hrun
  obtain ⟨l, hl, hrun⟩ := Checked.bind_eq_ok.mp hrun
  obtain ⟨rfl, rfl⟩ := Prod.mk.inj (Except.ok.inj hrun)
  exact ⟨d', l, hset, hl, hne⟩

/-- A grid does not take effect where the old layout stands twice, where a more important one stands
beside it, or where its line has hidden one. -/
theorem layoutFails_atlas :
    (parse "input a\n  atlas\n  atlas".toList).LayoutFails 1 .grid ∧
      (parse "input a\n  atlas\n  grid 8 8".toList).LayoutFails 1 .gridVertical ∧
      (parse "input a\n  atlas\n    atlas\n  grid 8 8".toList).LayoutFails 1 .grid := by
  refine ⟨?_, ?_, ?_⟩
  · exact layoutFails_of_run .atlas (by decide) (by decide)
  · exact layoutFails_of_run .grid (by decide) (by decide)
  · exact layoutFails_of_run .atlas (by decide) (by decide)

end Document
end SpriteConfig
