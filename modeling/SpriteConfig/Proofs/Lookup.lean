import SpriteConfig.Document.Lookup
import SpriteConfig.Proofs.Registry
/-!
# What a lookup finds

The block of a subject is a stretch of the lines after its own, and a lookup that finds a line finds
it under its own number in the document.
-/
namespace SpriteConfig

theorem prefix_dropTrailing {α : Type} (p : α → Bool) (as : List α) : dropTrailing p as <+: as := by
  induction as with
  | nil => exact List.prefix_rfl
  | cons a as ih =>
    rw [dropTrailing]
    cases h : dropTrailing p as with
    | nil =>
      dsimp only
      split
      · exact List.nil_prefix
      · exact ⟨as, rfl⟩
    | cons b bs => exact List.cons_prefix_cons.mpr ⟨rfl, h ▸ ih⟩

theorem prefix_blockBelow (level : Nat) (below : List Line) : blockBelow level below <+: below := by
  refine (prefix_dropTrailing _ _).trans ?_
  exact List.takeWhile_prefix _

section Scopes

variable {x : Line × Nat} {ls : List (Line × Nat)}

theorem mem_of_mem_directLines {least : Option Nat} (h : x ∈ directLines least ls) :
    x ∈ ls ∧ x.1.isDefinition = true := by
  fun_induction directLines least ls with
  | case1 => simp at h
  | case2 least l i rest hl ih =>
    rcases List.mem_cons.mp h with rfl | h
    · exact ⟨List.mem_cons_self, (Bool.and_eq_true_iff.mp hl).1⟩
    · exact ⟨List.mem_cons_of_mem _ (ih h).1, (ih h).2⟩
  | case3 least l i rest hl ih => exact ⟨List.mem_cons_of_mem _ (ih h).1, (ih h).2⟩

theorem mem_of_mem_commonLines {below : Nat} (h : x ∈ commonLines below ls) :
    x ∈ ls ∧ x.1.isDefinition = true := by
  fun_induction commonLines below ls with
  | case1 => simp at h
  | case2 below l i rest hl ih =>
    rcases List.mem_cons.mp h with rfl | h
    · exact ⟨List.mem_cons_self, (Bool.and_eq_true_iff.mp hl).1⟩
    · exact ⟨List.mem_cons_of_mem _ (ih h).1, (ih h).2⟩
  | case3 below l i rest hl ih => exact ⟨List.mem_cons_of_mem _ (ih h).1, (ih h).2⟩

theorem mem_of_findDefinition? {name : Text} (h : findDefinition? name ls = some x) :
    x ∈ ls ∧ x.1.definition = name :=
  ⟨List.mem_of_find?_eq_some h, by simpa using List.find?_some h⟩

end Scopes

namespace Registry

theorem mem_of_find? {r : Registry} {id : SubjectId} {s : Subject} (h : r.find? id = some s) :
    s ∈ r.subjects ∧ s.id = id :=
  ⟨List.mem_of_find?_eq_some h, by simpa using List.find?_some h⟩

theorem handle?_of_find? {r : Registry} {id : SubjectId} {s : Subject} (h : r.find? id = some s) :
    r.handle? id = some s.handle := by
  rw [handle?, h, Option.map_some]

theorem exists_of_handle? {r : Registry} {id : SubjectId} {h : Handle}
    (hh : r.handle? id = some h) : ∃ s ∈ r.subjects, s.id = id ∧ s.handle = h := by
  obtain ⟨s, hs, rfl⟩ := Option.map_eq_some_iff.mp hh
  exact ⟨s, (mem_of_find? hs).1, (mem_of_find? hs).2, rfl⟩

theorem handle?_of_line? {r : Registry} {id : SubjectId} {n : Nat} (h : r.line? id = some n) :
    r.handle? id = some (.line n) := by
  obtain ⟨handle, hh, hn⟩ := Option.bind_eq_some_iff.mp h
  cases handle with
  | root => simp [Handle.line?] at hn
  | line m =>
    simp only [Handle.line?, Option.some.injEq] at hn
    rw [hh, hn]

end Registry

/-- Whether a handle stands before the first line of a document or on one of its lines. -/
def Handle.Inside (h : Handle) (d : Document) : Prop := ∀ n, h = .line n → n < d.lines.length

theorem Handle.inside_line {d : Document} {n : Nat} (hn : n < d.lines.length) :
    (Handle.line n).Inside d := by
  rintro _ ⟨⟩
  exact hn

theorem Handle.inside_root (d : Document) : Handle.root.Inside d := nofun

theorem Handle.Inside.of_length_eq {h : Handle} {d d' : Document} (hh : h.Inside d)
    (hlen : d'.lines.length = d.lines.length) : h.Inside d' := by
  intro n hn
  rw [hlen]
  exact hh n hn

theorem Handle.Inside.next_le {h : Handle} {d : Document} (hh : h.Inside d) :
    h.next ≤ d.lines.length := by
  cases h with
  | root => exact Nat.zero_le _
  | line n => exact hh n rfl

namespace Document

variable {d : Document} {h : Handle}

theorem line_eq {n : Nat} {l : Line} (hl : d.lines[n]? = some l) : d.line n = .ok l :=
  line_eq_ok_iff.mpr hl

theorem block_eq {n : Nat} {l : Line} (hl : d.lines[n]? = some l) :
    d.block (.line n) = .ok (n + 1, blockBelow l.level (d.lines.drop (n + 1))) := by
  rw [block, line_eq hl]
  rfl

theorem exists_block (hh : h.Inside d) :
    ∃ start block, d.block h = .ok (start, block) ∧ start ≤ d.lines.length ∧
      block <+: d.lines.drop start := by
  cases h with
  | root => exact ⟨0, d.lines, rfl, Nat.zero_le _, List.prefix_rfl⟩
  | line n =>
    have hn := hh n rfl
    exact ⟨_, _, block_eq (List.getElem?_eq_getElem hn), hn, prefix_blockBelow _ _⟩

def BlockHas (d : Document) (h : Handle) (n : Nat) : Prop :=
  ∃ b, d.block h = .ok b ∧ b.1 ≤ n ∧ n < b.1 + b.2.length

instance (d : Document) (h : Handle) (n : Nat) : Decidable (d.BlockHas h n) :=
  match hb : d.block h with
  | .ok b => decidable_of_iff (b.1 ≤ n ∧ n < b.1 + b.2.length) (by simp [BlockHas, hb])
  | .error _ => isFalse (by simp [BlockHas, hb])

theorem getElem?_of_mem_zipIdx {start : Nat} {block : List Line} (hb : block <+: d.lines.drop start)
    {x : Line × Nat} (hx : x ∈ block.zipIdx start) : d.lines[x.2]? = some x.1 := by
  obtain ⟨hle, hget⟩ := List.mem_zipIdx_iff_le_and_getElem?_sub.mp hx
  obtain ⟨rest, hrest⟩ := hb
  have hlt := (List.getElem?_eq_some_iff.mp hget).1
  have hdrop : (d.lines.drop start)[x.2 - start]? = some x.1 := by
    rw [← hrest, List.getElem?_append_left hlt, hget]
  rwa [List.getElem?_drop, Nat.add_sub_cancel' hle] at hdrop

theorem exists_directAt (hh : h.Inside d) :
    ∃ ls, d.directAt h = .ok ls ∧ ∀ x ∈ ls, d.lines[x.2]? = some x.1 ∧ x.1.isDefinition = true := by
  obtain ⟨start, block, hb, -, hpre⟩ := exists_block hh
  refine ⟨directLines none (block.zipIdx start), by rw [directAt, hb]; rfl, ?_⟩
  intro x hx
  obtain ⟨hmem, hd⟩ := mem_of_mem_directLines hx
  exact ⟨getElem?_of_mem_zipIdx hpre hmem, hd⟩

theorem getElem?_of_findDefinition? {ls : List (Line × Nat)}
    (hmem : ∀ x ∈ ls, d.lines[x.2]? = some x.1 ∧ x.1.isDefinition = true) {name : Text} {l : Line}
    {n : Nat} (hfound : findDefinition? name ls = some (l, n)) :
    d.lines[n]? = some l ∧ l.isDefinition = true ∧ l.definition = name := by
  obtain ⟨hin, hname⟩ := mem_of_findDefinition? hfound
  exact ⟨(hmem _ hin).1, (hmem _ hin).2, hname⟩

theorem exists_findDirect? (hh : h.Inside d) (name : Text) :
    ∃ found, d.findDirect? h name = .ok found ∧
      ∀ l n, found = some (l, n) →
        d.lines[n]? = some l ∧ l.isDefinition = true ∧ l.definition = name := by
  obtain ⟨ls, hls, hmem⟩ := exists_directAt hh
  refine ⟨findDefinition? name ls, by rw [findDirect?, hls]; rfl, ?_⟩
  intro l n hfound
  exact getElem?_of_findDefinition? hmem hfound

theorem getElem?_of_findDirect? (hh : h.Inside d) {name : Text} {l : Line} {n : Nat}
    (hfound : d.findDirect? h name = .ok (some (l, n))) :
    d.lines[n]? = some l ∧ l.isDefinition = true ∧ l.definition = name := by
  obtain ⟨found, hfound', hat⟩ := exists_findDirect? hh name
  rw [hfound, Except.ok.injEq] at hfound'
  exact hat l n hfound'.symm

theorem exists_commonAt (hh : h.Inside d) :
    ∃ ls, d.commonAt h = .ok ls ∧ ∀ x ∈ ls, d.lines[x.2]? = some x.1 ∧ x.1.isDefinition = true := by
  cases h with
  | root => exact ⟨[], rfl, by simp⟩
  | line n =>
    have hn := hh n rfl
    have hl := List.getElem?_eq_getElem hn
    refine ⟨commonLines d.lines[n].level _, by rw [commonAt, line_eq hl]; rfl, ?_⟩
    intro x hx
    obtain ⟨hmem, hd⟩ := mem_of_mem_commonLines hx
    exact ⟨getElem?_of_mem_zipIdx (List.take_prefix n d.lines) (List.mem_reverse.mp hmem), hd⟩

theorem exists_findCommon? (hh : h.Inside d) (name : Text) :
    ∃ found, d.findCommon? h name = .ok found ∧
      ∀ l n, found = some (l, n) →
        d.lines[n]? = some l ∧ l.isDefinition = true ∧ l.definition = name := by
  obtain ⟨ls, hls, hmem⟩ := exists_commonAt hh
  refine ⟨findDefinition? name ls, by rw [findCommon?, hls]; rfl, ?_⟩
  intro l n hfound
  exact getElem?_of_findDefinition? hmem hfound

section Answers

variable {s : SubjectId} {name : Text} {n : Nat} {found : Option (Line × Nat)}

theorem foundParameters_map (found : Option (Line × Nat)) (f : Nat → Nat) :
    foundParameters (found.map fun x => (x.1, f x.2)) = foundParameters found := by
  cases found <;> rfl

theorem hasDirect_of_handle? (hs : d.registry.handle? s = some h)
    (hfound : d.findDirect? h name = .ok found) : d.hasDirect s name = .ok found.isSome := by
  rw [hasDirect, directLine?, hs]
  dsimp only
  rw [hfound]
  rfl

theorem direct?_of_handle? (hs : d.registry.handle? s = some h)
    (hfound : d.findDirect? h name = .ok found) : d.direct? s name = foundParameters found := by
  rw [direct?, directLine?, hs]
  dsimp only
  rw [hfound]
  rfl

theorem common?_of_handle? (hs : d.registry.handle? s = some h)
    (hfound : d.findCommon? h name = .ok found) : d.common? s name = foundParameters found := by
  rw [common?, commonLine?, hs]
  dsimp only
  rw [hfound]
  rfl

theorem common?_of_root (hs : d.registry.handle? s = some .root) :
    d.common? s name = .ok none :=
  common?_of_handle? hs rfl

theorem ownLine?_of_root (hs : d.registry.handle? s = some .root) :
    d.ownLine? s = none := by
  rw [ownLine?, Registry.line?, hs]
  rfl

theorem ownLine?_of_line (hs : d.registry.handle? s = some (.line n)) :
    d.ownLine? s = d.lines[n]? := by
  rw [ownLine?, Registry.line?, hs]
  rfl

end Answers

end Document
end SpriteConfig
