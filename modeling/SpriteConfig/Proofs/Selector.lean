import SpriteConfig.Proofs.Coherent
import SpriteConfig.Proofs.Rescan
import SpriteConfig.Proofs.Visible
import SpriteConfig.Selector
/-!
# Selectors

The sheets, the inputs and the sprites of each input are numbered in lists of their own. Where every
sprite belongs to an input that is listed, as in a document that has just been read, each subject
has exactly one selector. Reading what is written of a selector gives the selector.
-/
namespace SpriteConfig

namespace Text

theorem splitOnce?_append {c : Char} {s : Text} (h : c ∉ s) (t : Text) :
    splitOnce? c (s ++ c :: t) = some (s, t) := by
  induction s with
  | nil => simp [splitOnce?]
  | cons a s ih =>
    simp only [List.mem_cons, not_or] at h
    rw [List.cons_append, splitOnce?, if_neg (Ne.symm h.1), ih h.2]
    rfl

end Text

namespace Selector

/-- Whether the indices of a selector are numbers of 64 bits. -/
def Fits : Selector → Prop
  | sheet n => n ≤ maxWord64
  | input n => n ≤ maxWord64
  | sprite i j => i ≤ maxWord64 ∧ j ≤ maxWord64

theorem readIndex?_ofNat {n : Nat} (h : n ≤ maxWord64) : readIndex? (Text.ofNat n) = some n := by
  have hdigits : (Text.ofNat n).all Char.isDigit = true :=
    List.all_eq_true.mpr fun c hc => Text.isDigit_of_mem_ofNat hc
  have hvalue : Nat.ofDigitChars 10 (Text.ofNat n) 0 = n := Nat.ofDigitChars_ten_toDigits
  obtain ⟨c, t, ht⟩ := List.exists_cons_of_ne_nil (Nat.toDigits_ne_nil (n := n) (b := 10))
  have htext : Text.ofNat n = c :: t := ht
  rw [htext] at hdigits hvalue ⊢
  have hunsigned : c ≠ '+' := by
    rintro rfl
    simp at hdigits
  simp [readIndex?, hunsigned, hdigits, hvalue, h]

private theorem ne_root (kind index : Text) : kind ++ ':' :: index ≠ "root".toList := by
  intro h
  have hcolon : ':' ∈ "root".toList := by
    rw [← h]
    exact List.mem_append_right kind List.mem_cons_self
  revert hcolon
  decide

/-- Reading what is written of a selector gives the selector. -/
theorem parse_display {sel : Selector} (h : sel.Fits) : parse sel.display = .ok sel := by
  have hread : parse? sel.display = some sel := by
    cases sel with
    | sheet n =>
      change parse? ("sheet".toList ++ ':' :: Text.ofNat n) = _
      rw [parse?, if_neg (ne_root _ _), Text.splitOnce?_append (by decide)]
      change (readIndex? (Text.ofNat n)).bind (fun n => some (sheet n)) = _
      rw [readIndex?_ofNat h]
      rfl
    | input n =>
      change parse? ("input".toList ++ ':' :: Text.ofNat n) = _
      rw [parse?, if_neg (ne_root _ _), Text.splitOnce?_append (by decide)]
      change (readIndex? (Text.ofNat n)).bind (fun n => some (input n)) = _
      rw [readIndex?_ofNat h]
      rfl
    | sprite i j =>
      have hkind : "sprite:".toList = "sprite".toList ++ [':'] := by decide
      have hdisplay : (sprite i j).display =
          "sprite:".toList ++ Text.ofNat i ++ '.' :: Text.ofNat j := rfl
      rw [hkind, List.append_assoc, List.append_assoc, List.singleton_append] at hdisplay
      rw [hdisplay, parse?, if_neg (ne_root _ _), Text.splitOnce?_append (by decide)]
      change (Text.splitOnce? '.' (Text.ofNat i ++ '.' :: Text.ofNat j)).bind (fun p =>
        (readIndex? p.1).bind fun i => (readIndex? p.2).bind fun j => some (sprite i j)) = _
      rw [Text.splitOnce?_append (Text.not_mem_ofNat (by decide) i), Option.bind_some,
        readIndex?_ofNat h.1, Option.bind_some, readIndex?_ofNat h.2]
      rfl
  rw [parse, hread]

theorem display_injective : Function.Injective display := by
  have hindex : Function.Injective Text.ofNat := by
    intro m n h
    calc
      m = Nat.ofDigitChars 10 (Text.ofNat m) 0 := Nat.ofDigitChars_ten_toDigits.symm
      _ = Nat.ofDigitChars 10 (Text.ofNat n) 0 := by rw [h]
      _ = n := Nat.ofDigitChars_ten_toDigits
  have hsprite : ∀ i j, display (sprite i j) =
      "sprite:".toList ++ (Text.ofNat i ++ '.' :: Text.ofNat j) := fun i j =>
    List.append_assoc _ _ _
  rintro (m | m | ⟨i, j⟩) (n | n | ⟨k, l⟩) h
  case sheet.sheet => rw [hindex (List.append_cancel_left h)]
  case input.input => rw [hindex (List.append_cancel_left h)]
  case sprite.sprite =>
    rw [hsprite, hsprite] at h
    have hsplit := congrArg (Text.splitOnce? '.') (List.append_cancel_left h)
    rw [Text.splitOnce?_append (Text.not_mem_ofNat (by decide) i),
      Text.splitOnce?_append (Text.not_mem_ofNat (by decide) k), Option.some.injEq,
      Prod.mk.injEq] at hsplit
    rw [hindex hsplit.1, hindex hsplit.2]
  all_goals cases h

section Rows

variable {r : Registry} {sel : Selector} {id : SubjectId}

theorem sheetRows_eq (n : Nat) (ss : List SubjectId) :
    sheetRows n ss = (ss.zipIdx n).map fun p => (sheet p.2, p.1) := by
  induction ss generalizing n with
  | nil => rfl
  | cons s ss ih => rw [sheetRows, ih, List.zipIdx_cons, List.map_cons]

theorem spriteRows_eq (i j : Nat) (ss : List SubjectId) :
    spriteRows i j ss = (ss.zipIdx j).map fun p => (sprite i p.2, p.1) := by
  induction ss generalizing j with
  | nil => rfl
  | cons s ss ih => rw [spriteRows, ih, List.zipIdx_cons, List.map_cons]

theorem inputRows_eq (r : Registry) (i : Nat) (ss : List SubjectId) :
    inputRows r i ss =
      (ss.zipIdx i).flatMap fun p => (input p.2, p.1) :: spriteRows p.2 0 (r.sprites p.1) := by
  induction ss generalizing i with
  | nil => rfl
  | cons s ss ih => rw [inputRows, ih, List.zipIdx_cons, List.flatMap_cons, List.cons_append]

theorem mem_rows_iff : (sel, id) ∈ rows r ↔ sel.find? r = some id := by
  simp only [rows, sheetRows_eq, inputRows_eq, spriteRows_eq, List.mem_append, List.mem_map,
    List.mem_flatMap, List.mem_cons, List.mem_zipIdx_iff_getElem?, Prod.exists, Prod.mk.injEq]
  cases sel with
  | sheet n => simp [find?]
  | input n => simp [find?]
  | sprite i j => simp [find?, Option.bind_eq_some_iff]

theorem nodup_rows (r : Registry) : (rows r).Nodup := by
  have hsheets : (sheetRows 0 r.sheets).Nodup := by
    rw [sheetRows_eq]
    refine List.pairwise_map.mpr ((pairwise_zipIdx r.sheets 0).imp fun hlt heq => ?_)
    simp only [Prod.mk.injEq, sheet.injEq] at heq
    exact Nat.ne_of_lt hlt heq.1
  have hsprites (i : Nat) (ss : List SubjectId) : (spriteRows i 0 ss).Nodup := by
    rw [spriteRows_eq]
    refine List.pairwise_map.mpr ((pairwise_zipIdx ss 0).imp fun hlt heq => ?_)
    simp only [Prod.mk.injEq, sprite.injEq] at heq
    exact Nat.ne_of_lt hlt heq.1.2
  have hinputs : (inputRows r 0 r.inputs).Nodup := by
    rw [inputRows_eq, List.nodup_flatMap]
    refine ⟨fun p _ => ?_, (pairwise_zipIdx r.inputs 0).imp fun hlt => ?_⟩
    · refine List.nodup_cons.mpr ⟨?_, hsprites _ _⟩
      simp [spriteRows_eq]
    · simp only [Function.onFun, List.Disjoint, spriteRows_eq, List.mem_cons, List.mem_map]
      grind
  rw [rows]
  refine hsheets.append hinputs ?_
  simp only [List.Disjoint, sheetRows_eq, inputRows_eq, spriteRows_eq, List.mem_map,
    List.mem_flatMap, List.mem_cons]
  grind

end Rows

end Selector

namespace Registry

variable {r : Registry} {ls : List Line} {s t : Subject}

theorem Coherent.nodup_ofKind (h : r.Coherent ls) (kind : SubjectKind) : (r.ofKind kind).Nodup :=
  h.nodup.sublist (List.filter_sublist.map Subject.id)

theorem Coherent.nodup_sprites (h : r.Coherent ls) (p : SubjectId) : (r.sprites p).Nodup :=
  h.nodup.sublist (List.filter_sublist.map Subject.id)

theorem Coherent.eq_of_id_eq (h : r.Coherent ls) (hs : s ∈ r.subjects) (ht : t ∈ r.subjects)
    (hid : s.id = t.id) : s = t :=
  List.inj_on_of_nodup_map h.nodup hs ht hid

def Adopts (r : Registry) : Prop := ∀ s ∈ r.subjects, s.kind = .sprite → ∃ p, s.parent = some p

theorem Scanned.adopts (h : r.Scanned ls) : r.Adopts := by
  intro s hs hkind
  obtain ⟨root, ss, τ, hsubjects, hroot, hscan⟩ := h
  rcases List.mem_append.mp (hsubjects ▸ hs) with hs | hs
  · rw [(hroot.eq_of_mem hs).1] at hkind
    cases hkind
  · obtain ⟨as, l, bs, xs, ys, υ, -, -, -, hform, hl, -⟩ := hscan.exists_of_mem hs
    have hinput := (Scope.introduced?_eq_some_iff.mp hl).2.2 hkind
    obtain ⟨p, hp⟩ := Option.isSome_iff_exists.mp hinput
    exact ⟨p, by rw [hform, hkind, Scope.owner?, hp]⟩

end Registry

namespace Selector

variable {r : Registry} {ls : List Line} {sel sel' : Selector} {id : SubjectId}

def kind : Selector → SubjectKind
  | sheet _ => .sheet
  | input _ => .input
  | sprite _ _ => .sprite

theorem exists_of_find? (h : sel.find? r = some id) :
    ∃ s ∈ r.subjects, s.id = id ∧ s.kind = sel.kind ∧
      ∀ i j, sel = sprite i j → ∃ p, s.parent = some p ∧ r.inputs[i]? = some p ∧
        (r.sprites p)[j]? = some id := by
  cases sel with
  | sheet n =>
    obtain ⟨s, hs, hkind, hid⟩ := Registry.mem_ofKind_iff.mp (List.mem_of_getElem? h)
    exact ⟨s, hs, hid, hkind, nofun⟩
  | input n =>
    obtain ⟨s, hs, hkind, hid⟩ := Registry.mem_ofKind_iff.mp (List.mem_of_getElem? h)
    exact ⟨s, hs, hid, hkind, nofun⟩
  | sprite i j =>
    obtain ⟨p, hp, hj⟩ := Option.bind_eq_some_iff.mp h
    obtain ⟨s, hs, hkind, hparent, hid⟩ := Registry.mem_sprites_iff.mp (List.mem_of_getElem? hj)
    refine ⟨s, hs, hid, hkind, ?_⟩
    rintro _ _ ⟨⟩
    exact ⟨p, hparent, hp, hj⟩

private theorem eq_of_getElem? {ss : List SubjectId} (hss : ss.Nodup) {m n : Nat}
    (hm : ss[m]? = some id) (hn : ss[n]? = some id) : m = n := by
  have hlt := (List.getElem?_eq_some_iff.mp hm).1
  exact (List.getElem?_inj hlt hss).mp (hm.trans hn.symm)

theorem eq_of_find? (h : r.Coherent ls) (hsel : sel.find? r = some id)
    (hsel' : sel'.find? r = some id) : sel = sel' := by
  obtain ⟨s, hs, hid, hkind, hsprite⟩ := exists_of_find? hsel
  obtain ⟨t, ht, hid', hkind', hsprite'⟩ := exists_of_find? hsel'
  obtain rfl : s = t := h.eq_of_id_eq hs ht (hid.trans hid'.symm)
  rw [hkind] at hkind'
  cases sel with
  | sheet m =>
    cases sel' with
    | sheet n => rw [eq_of_getElem? (h.nodup_ofKind .sheet) hsel hsel']
    | input n => cases hkind'
    | sprite i j => cases hkind'
  | input m =>
    cases sel' with
    | sheet n => cases hkind'
    | input n => rw [eq_of_getElem? (h.nodup_ofKind .input) hsel hsel']
    | sprite i j => cases hkind'
  | sprite i j =>
    cases sel' with
    | sheet n => cases hkind'
    | input n => cases hkind'
    | sprite k l =>
      obtain ⟨p, hp, hi, hj⟩ := hsprite i j rfl
      obtain ⟨q, hq, hk, hl⟩ := hsprite' k l rfl
      obtain rfl := Option.some.inj (hp.symm.trans hq)
      rw [eq_of_getElem? (h.nodup_ofKind .input) hi hk, eq_of_getElem? (h.nodup_sprites p) hj hl]

theorem exists_find?_eq (h : r.Coherent ls) (ha : r.Adopts) {s : Subject} (hs : s ∈ r.subjects) :
    ∃ sel : Selector, sel.find? r = some s.id := by
  cases hkind : s.kind with
  | sheet =>
    obtain ⟨n, hn⟩ := List.mem_iff_getElem?.mp (Registry.mem_ofKind_iff.mpr ⟨s, hs, hkind, rfl⟩)
    exact ⟨sheet n, hn⟩
  | input =>
    obtain ⟨n, hn⟩ := List.mem_iff_getElem?.mp (Registry.mem_ofKind_iff.mpr ⟨s, hs, hkind, rfl⟩)
    exact ⟨input n, hn⟩
  | sprite =>
    obtain ⟨p, hp⟩ := ha s hs hkind
    obtain ⟨q, hq, hid, howner, -⟩ := h.owned s hs p hp
    rw [hkind, SubjectKind.owner?, Option.some.injEq] at howner
    obtain ⟨i, hi⟩ :=
      List.mem_iff_getElem?.mp (Registry.mem_ofKind_iff.mpr ⟨q, hq, howner.symm, hid⟩)
    obtain ⟨j, hj⟩ :=
      List.mem_iff_getElem?.mp (Registry.mem_sprites_iff.mpr ⟨s, hs, hkind, hp, rfl⟩)
    exact ⟨sprite i j, Option.bind_eq_some_iff.mpr ⟨p, hi, hj⟩⟩

theorem fits_of_find? (hlength : r.subjects.length ≤ maxWord64 + 1)
    (h : sel.find? r = some id) : sel.Fits := by
  have hindex : ∀ {p : Subject → Bool} {n : Nat} {id : SubjectId},
      ((r.subjects.filter p).map Subject.id)[n]? = some id → n ≤ maxWord64 := by
    intro p n id hn
    have hlt := (List.getElem?_eq_some_iff.mp hn).1
    have hle := List.length_filter_le p r.subjects
    rw [List.length_map] at hlt
    omega
  cases sel with
  | sheet n => exact hindex h
  | input n => exact hindex h
  | sprite i j =>
    obtain ⟨p, hi, hj⟩ := Option.bind_eq_some_iff.mp h
    exact ⟨hindex hi, hindex hj⟩

theorem resolve_eq_ok_iff {d : Document} :
    sel.resolve d = .ok id ↔ sel.find? d.registry = some id := by
  rw [resolve]
  cases sel.find? d.registry <;> simp

end Selector

end SpriteConfig
