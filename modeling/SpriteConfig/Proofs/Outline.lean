import SpriteConfig.Outline
import SpriteConfig.Proofs.Inserted
/-!
# Outlines after an insertion

How headings are put into trees depends on their levels alone. So when a line is inserted that is no
heading, the outline stays the same up to the numbers of the lines after it.
-/
namespace SpriteConfig

namespace Outline

variable {f : Heading → Heading}

mutual
def map (f : Heading → Heading) : Outline → Outline
  | node h cs => node (f h) (mapAll f cs)
def mapAll (f : Heading → Heading) : List Outline → List Outline
  | [] => []
  | t :: ts => map f t :: mapAll f ts
end

private theorem mapAll_eq_map (f : Heading → Heading) (ts : List Outline) :
    mapAll f ts = ts.map (map f) := by
  induction ts with
  | nil => rfl
  | cons t ts ih => rw [mapAll, ih, List.map_cons]

theorem map_node (f : Heading → Heading) (h : Heading) (cs : List Outline) :
    map f (node h cs) = node (f h) (cs.map (map f)) := by
  rw [map, mapAll_eq_map]

theorem heading_map (f : Heading → Heading) (t : Outline) : (map f t).heading = f t.heading := by
  cases t
  rfl

theorem grow_map (hf : ∀ h, (f h).level = h.level) (h : Heading) (ts : List Outline) :
    grow (f h) (ts.map (map f)) = (grow h ts).map (map f) := by
  have hdeeper : (fun t : Outline => decide ((f h).level < t.heading.level)) ∘ map f =
      fun t => decide (h.level < t.heading.level) := by
    funext t
    simp only [Function.comp_apply, heading_map, hf]
  simp only [grow, List.map_cons, map_node, List.takeWhile_map, List.dropWhile_map, hdeeper]

theorem ofHeadings_map (hf : ∀ h, (f h).level = h.level) (hs : List Heading) :
    ofHeadings (hs.map f) = (ofHeadings hs).map (map f) := by
  induction hs with
  | nil => rfl
  | cons h hs ih =>
    simp only [ofHeadings, List.map_cons, List.foldr_cons] at ih ⊢
    rw [ih, grow_map hf]

end Outline

def Heading.renumbered (σ : Nat → Nat) (h : Heading) : Heading := { h with line := σ h.line }

theorem Heading.ofText?_renumbered (σ : Nat → Nat) (n : Nat) (t : Text) :
    ofText? (σ n) t = (ofText? n t).map (renumbered σ) := by
  simp only [ofText?]
  split
  · rfl
  · rw [Option.map_map]
    rfl

theorem headingsFrom_shifted {i n : Nat} (hi : i ≤ n) (ls : List Line) :
    headingsFrom (n + 1) ls = (headingsFrom n ls).map (Heading.renumbered (shiftFrom i)) := by
  induction ls generalizing n with
  | nil => rfl
  | cons l ls ih =>
    have hshift : shiftFrom i n = n + 1 := if_pos hi
    have hfirst := Heading.ofText?_renumbered (shiftFrom i) n l.text
    rw [hshift] at hfirst
    rw [headingsFrom, headingsFrom, ih (Nat.le_succ_of_le hi), hfirst, List.map_append,
      Option.toList_map]

theorem headingsFrom_inserted {new : Line} {ls : List Line} {n k : Nat}
    (hnew : ∀ n, Heading.ofText? n new.text = none) (hk : k ≤ ls.length) :
    headingsFrom n (ls.insertIdx k new) =
      (headingsFrom n ls).map (Heading.renumbered (shiftFrom (n + k))) := by
  induction k generalizing n ls with
  | zero =>
    rw [List.insertIdx_zero, headingsFrom, hnew]
    exact headingsFrom_shifted (Nat.le_refl n) ls
  | succ k ih =>
    cases ls with
    | nil => simp at hk
    | cons l ls =>
      have hshift : shiftFrom (n + (k + 1)) n = n := if_neg (by omega)
      have hsum : n + 1 + k = n + (k + 1) := by omega
      have hfirst := Heading.ofText?_renumbered (shiftFrom (n + (k + 1))) n l.text
      rw [hshift] at hfirst
      rw [List.insertIdx_succ_cons, headingsFrom, headingsFrom,
        ih (Nat.le_of_succ_le_succ hk), hsum, List.map_append, ← Option.toList_map, ← hfirst]

theorem Outline.ofLines_insertIdx {new : Line} {ls : List Line} {k : Nat}
    (hnew : ∀ n, Heading.ofText? n new.text = none) (hk : k ≤ ls.length) :
    ofLines (ls.insertIdx k new) = (ofLines ls).map (map (Heading.renumbered (shiftFrom k))) := by
  have hlevel : ∀ h : Heading, (h.renumbered (shiftFrom k)).level = h.level := fun _ => rfl
  rw [ofLines, headingsFrom_inserted hnew hk, Nat.zero_add, ofHeadings_map hlevel, ofLines]

end SpriteConfig
