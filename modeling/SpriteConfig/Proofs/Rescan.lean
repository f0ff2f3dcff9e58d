import SpriteConfig.Proofs.Coherent
import SpriteConfig.Proofs.Enclosure
/-!
# Scans of changed lines

When lines are inserted or deleted, the subjects that are kept are a scan of the new lines. Lines
without a sheet can be deleted if the scope after them is the one before them, or if the lines that
follow do not look at the input of their scope. Two scans of the same lines differ in nothing but
the numbers of the subjects.
-/
namespace SpriteConfig

open List (Forall₂)
open Registry (isSheetLine)

namespace Scope

variable {σ σ' : Scope} {l m : Line}

theorem introduced?_eq_none (hl : ∀ kind : SubjectKind, l.definition ≠ kind.token) :
    σ.introduced? l = none := by
  simp [introduced?, isSheetLine, hl]

theorem introduced?_of_ne_sprite (hl : l.definition ≠ SubjectKind.sprite.token) :
    σ.introduced? l = σ'.introduced? l := by
  simp [introduced?, hl]

theorem introduced?_congr (h : σ.input.isSome = σ'.input.isSome) (l : Line) :
    σ.introduced? l = σ'.introduced? l := by
  rw [introduced?, introduced?, h]

theorem introduced?_alike (h : l.Alike m) (σ : Scope) : σ.introduced? l = σ.introduced? m := by
  rw [introduced?, introduced?, h.isSheetLine_eq, h.definition_eq]

end Scope

namespace Scans

variable {n : Nat} {σ σ' τ τ' : Scope} {ls ms : List Line} {ss ss' : List Subject} {s : Subject}

theorem congr (h : Scans n σ ls ss τ) (ha : Forall₂ Line.Alike ls ms) : Scans n σ ms ss τ := by
  induction h generalizing ms with
  | nil n σ =>
    cases ha
    exact .nil n σ
  | subject id hl _ ih =>
    cases ha with
    | cons hlm ha => exact .subject id ((Scope.introduced?_alike hlm _).symm.trans hl) (ih ha)
  | other hl _ ih =>
    cases ha with
    | cons hlm ha => exact .other ((Scope.introduced?_alike hlm _).symm.trans hl) (ih ha)

theorem shift (h : Scans n σ ls ss τ) {m : Nat} {f : Subject → Subject}
    (hf : ∀ s ∈ ss, ∀ k, s.handle = .line (n + k) → f s = { s with handle := .line (m + k) }) :
    Scans m σ ls (ss.map f) τ := by
  induction h generalizing m with
  | nil n σ => exact .nil m σ
  | @subject n σ τ l ls ss kind id hl _ ih =>
    obtain ⟨hfirst, hf⟩ := List.forall_mem_cons.mp hf
    rw [List.map_cons, hfirst 0 rfl]
    refine .subject id hl (ih fun s hs k hk => ?_)
    rw [Nat.add_assoc, Nat.add_comm 1] at hk ⊢
    exact hf s hs (k + 1) hk
  | @other n σ τ l ls ss hl _ ih =>
    refine .other hl (ih fun s hs k hk => ?_)
    rw [Nat.add_assoc, Nat.add_comm 1] at hk ⊢
    exact hf s hs (k + 1) hk

theorem exists_of_mem (h : Scans n σ ls ss τ) (hs : s ∈ ss) :
    ∃ as l bs xs ys υ, ls = as ++ l :: bs ∧ ss = xs ++ s :: ys ∧ Scans n σ as xs υ ∧
      s = ⟨s.id, s.kind, .line (n + as.length), υ.owner? s.kind⟩ ∧
      υ.introduced? l = some s.kind ∧
      Scans (n + as.length + 1) (υ.enter s.id s.kind) bs ys τ := by
  induction h with
  | nil => simp at hs
  | @subject n σ τ l ls ss kind id hl hrest ih =>
    rcases List.mem_cons.mp hs with rfl | hs
    · exact ⟨[], l, ls, [], ss, σ, rfl, rfl, .nil n σ, rfl, hl, hrest⟩
    · obtain ⟨as, m, bs, xs, ys, υ, rfl, rfl, hxs, hform, hm, hys⟩ := ih hs
      refine ⟨l :: as, m, bs, _ :: xs, ys, υ, rfl, rfl, .subject id hl hxs, ?_, hm, ?_⟩
      · rwa [List.length_cons, Nat.add_comm as.length, ← Nat.add_assoc]
      · rwa [List.length_cons, Nat.add_comm as.length, ← Nat.add_assoc]
  | @other n σ τ l ls ss hl hrest ih =>
    obtain ⟨as, m, bs, xs, ys, υ, rfl, rfl, hxs, hform, hm, hys⟩ := ih hs
    refine ⟨l :: as, m, bs, xs, ys, υ, rfl, rfl, .other hl hxs, ?_, hm, ?_⟩
    · rwa [List.length_cons, Nat.add_comm as.length, ← Nat.add_assoc]
    · rwa [List.length_cons, Nat.add_comm as.length, ← Nat.add_assoc]

theorem sheet_eq (h : Scans n σ ls ss τ) (hls : ∀ l ∈ ls, isSheetLine l = false) :
    τ.sheet = σ.sheet := by
  induction h with
  | nil => rfl
  | @subject n σ τ l ls ss kind id hl _ ih =>
    obtain ⟨hsheet, hls⟩ := List.forall_mem_cons.mp hls
    cases kind with
    | sheet =>
      obtain ⟨hdef, hlevel⟩ := Scope.suits_of_introduced? hl id
      simp [isSheetLine, hdef, hlevel] at hsheet
    | input => exact ih hls
    | sprite => exact ih hls
  | other hl _ ih => exact ih (List.forall_mem_cons.mp hls).2

theorem input_eq (h : Scans n σ ls ss τ)
    (hls : ∀ l ∈ ls, l.definition ≠ SubjectKind.input.token) : τ.input = σ.input := by
  induction h with
  | nil => rfl
  | @subject n σ τ l ls ss kind id hl _ ih =>
    obtain ⟨hinput, hls⟩ := List.forall_mem_cons.mp hls
    cases kind with
    | sheet => exact ih hls
    | input => exact absurd (Scope.suits_of_introduced? hl id).1 hinput
    | sprite => exact ih hls
  | other hl _ ih => exact ih (List.forall_mem_cons.mp hls).2

theorem of_detached (h : Scans n σ ls ss τ) (hd : Detached ls) (input : Option SubjectId) :
    ∃ υ, Scans n { σ with input } ls ss υ := by
  induction h with
  | nil n σ => exact ⟨_, .nil n _⟩
  | @subject n σ τ l ls ss kind id hl hrest ih =>
    have hdef := (Scope.suits_of_introduced? hl id).1
    have hl' : ({ σ with input } : Scope).introduced? l = some kind :=
      (Scope.introduced?_of_ne_sprite hd.head_ne_sprite).trans hl
    cases kind with
    | sheet =>
      obtain ⟨υ, h⟩ := ih (hd.tail (by simp [hdef]))
      exact ⟨υ, .subject id hl' h⟩
    | input => exact ⟨τ, .subject id hl' hrest⟩
    | sprite => exact absurd hdef hd.head_ne_sprite
  | @other n σ τ l ls ss hl _ ih =>
    have hinput : l.definition ≠ SubjectKind.input.token := by
      intro hdef
      have hkind : σ.introduced? l = some .input :=
        Scope.introduced?_eq_some_iff.mpr ⟨hdef, by simp, by simp⟩
      simp [hkind] at hl
    obtain ⟨υ, h⟩ := ih (hd.tail hinput)
    exact ⟨υ, .other ((Scope.introduced?_of_ne_sprite hd.head_ne_sprite).trans hl) h⟩

end Scans

/-- The kind and the handle of a subject, and the handle of what it belongs to. -/
def Subject.view (handle? : SubjectId → Option Handle) (s : Subject) :
    SubjectKind × Handle × Option Handle :=
  (s.kind, s.handle, s.parent.bind handle?)

theorem Scans.map_view_eq {n : Nat} {σ σ' τ τ' : Scope} {ls : List Line} {ss ss' : List Subject}
    {f g : SubjectId → Option Handle} (h : Scans n σ ls ss τ) (h' : Scans n σ' ls ss' τ')
    (hf : ∀ s ∈ ss, f s.id = some s.handle) (hg : ∀ s ∈ ss', g s.id = some s.handle)
    (hinput : σ.input.isSome = σ'.input.isSome)
    (hσ : ∀ kind, (σ.owner? kind).bind f = (σ'.owner? kind).bind g) :
    ss.map (Subject.view f) = ss'.map (Subject.view g) := by
  induction h generalizing σ' ss' with
  | nil n σ =>
    cases h'
    rfl
  | @subject n σ τ l ls ss kind id hl _ ih =>
    rw [Scope.introduced?_congr hinput] at hl
    cases h' with
    | other hl' => simp [hl'] at hl
    | @subject _ _ _ _ _ ss' kind' id' hl' hrest' =>
      obtain rfl : kind' = kind := Option.some.inj (hl'.symm.trans hl)
      obtain ⟨hfirst, hf⟩ := List.forall_mem_cons.mp hf
      obtain ⟨hfirst', hg⟩ := List.forall_mem_cons.mp hg
      have hafter : (σ.enter id kind').input.isSome = (σ'.enter id' kind').input.isSome := by
        cases kind' <;> simp [Scope.enter, hinput]
      have howner : ∀ k, ((σ.enter id kind').owner? k).bind f =
          ((σ'.enter id' kind').owner? k).bind g := by
        intro k
        rw [Scope.owner?_enter, Scope.owner?_enter]
        split
        · rw [Option.bind_some, Option.bind_some, hfirst, hfirst']
        · exact hσ k
      rw [List.map_cons, List.map_cons, ih hrest' hf hg hafter howner, Subject.view, Subject.view,
        hσ kind']
  | @other n σ τ l ls ss hl _ ih =>
    rw [Scope.introduced?_congr hinput] at hl
    cases h' with
    | subject id' hl' _ => simp [hl'] at hl
    | other hl' hrest' => exact ih hrest' hf hg hinput hσ

namespace Registry

variable {r r' : Registry} {ls as bs cs : List Line} {root : List Subject} {l : Line}

/-- What a registry says of its subjects, but for their numbers. -/
def view (r : Registry) : List (SubjectKind × Handle × Option Handle) :=
  r.subjects.map (Subject.view r.handle?)

theorem Scanned.view_eq (h : r.Scanned ls) (h' : r'.Scanned ls)
    (hr : (r.subjects.map Subject.id).Nodup) (hr' : (r'.subjects.map Subject.id).Nodup) :
    r.view = r'.view := by
  obtain ⟨root, ss, τ, hsubjects, hroot, hscan⟩ := h
  obtain ⟨root', ss', τ', hsubjects', hroot', hscan'⟩ := h'
  have hf : ∀ s ∈ ss, r.handle? s.id = some s.handle :=
    fun s hs => handle?_of_mem hr (hsubjects ▸ List.mem_append_right root hs)
  have hg : ∀ s ∈ ss', r'.handle? s.id = some s.handle :=
    fun s hs => handle?_of_mem hr' (hsubjects' ▸ List.mem_append_right root' hs)
  rw [view, view, hsubjects, hsubjects', List.map_append, List.map_append]
  rw [IsRoot] at hroot hroot'
  split at hroot
  · next hany =>
    rw [if_pos hany] at hroot'
    subst hroot hroot'
    rw [hscan.map_view_eq hscan' hf hg rfl fun kind => by cases kind <;> rfl]
    rfl
  · next hany =>
    rw [if_neg hany] at hroot'
    obtain ⟨id, rfl⟩ := hroot
    obtain ⟨id', rfl⟩ := hroot'
    have hid : r.handle? id = some .root :=
      handle?_of_mem hr (hsubjects ▸ List.mem_append_left ss List.mem_cons_self)
    have hid' : r'.handle? id' = some .root :=
      handle?_of_mem hr' (hsubjects' ▸ List.mem_append_left ss' List.mem_cons_self)
    rw [hscan.map_view_eq hscan' hf hg rfl fun kind => by
      cases kind <;> simp [Scope.owner?, hid, hid']]
    rfl

theorem IsRoot.of_any (h : IsRoot as root) (hany : as.any isSheetLine = bs.any isSheetLine) :
    IsRoot bs root := by
  rwa [IsRoot, ← hany]

theorem Scanned.congr (h : r.Scanned as) (ha : Forall₂ Line.Alike as bs) : r.Scanned bs := by
  obtain ⟨root, ss, τ, hsubjects, hroot, hscan⟩ := h
  exact ⟨root, ss, τ, hsubjects, hroot.of_any (any_isSheetLine_congr ha), hscan.congr ha⟩

private theorem map_append_eq {f : Subject → Subject} {root xs : List Subject} {σ υ : Scope}
    (hroot : IsRoot ls root) (hxs : Scans 0 σ as xs υ)
    (hf : ∀ s : Subject, s.handle.before (.line as.length) = true → f s = s) (ys : List Subject) :
    (root ++ (xs ++ ys)).map f = root ++ (xs ++ ys.map f) := by
  have hleft : ∀ s ∈ root, f s = s := by
    intro s hs
    apply hf
    rw [(hroot.eq_of_mem hs).1]
    rfl
  have hstays : ∀ s ∈ xs, f s = s := by
    intro s hs
    obtain ⟨m, hlt, hm⟩ := hxs.exists_lt hs
    apply hf
    rw [hm, Handle.before, decide_eq_true_eq]
    omega
  rw [List.map_append, List.map_append, List.map_congr_left hleft, List.map_congr_left hstays,
    List.map_id', List.map_id']

private theorem shifted_of_before {after : Handle} {s : Subject} {n : Nat} (hnext : after.next = n)
    (hs : s.handle.before (.line n) = true) : shifted after s = s := by
  obtain ⟨id, kind, handle, parent⟩ := s
  cases handle with
  | root => rfl
  | line m =>
    simp only [Handle.before, decide_eq_true_eq] at hs
    rw [shifted_line, if_neg (by omega)]

private theorem Scans.shifted {n : Nat} {σ υ : Scope} {ys : List Subject} {after : Handle}
    (h : Scans n σ bs ys υ) (hnext : after.next ≤ n) :
    Scans (n + 1) σ bs (ys.map (Registry.shifted after)) υ := by
  refine h.shift fun s _ k hk => ?_
  rw [Registry.shifted, hk, Handle.moved_line, if_pos (by omega), Nat.add_right_comm]

private theorem any_isSheetLine_insert (hl : l.definition ≠ SubjectKind.sheet.token) :
    (as ++ bs).any isSheetLine = (as ++ l :: bs).any isSheetLine := by
  have hsheet : isSheetLine l = false := by simp [isSheetLine, hl]
  rw [List.any_append, List.any_append, List.any_cons, hsheet, Bool.false_or]

theorem Scanned.insert (h : r.Scanned (as ++ bs)) {after : Handle}
    (hnext : after.next = as.length) (hl : ∀ kind : SubjectKind, l.definition ≠ kind.token) :
    (r.shiftAfter after 1).Scanned (as ++ l :: bs) := by
  obtain ⟨root, ss, τ, hsubjects, hroot, hscan⟩ := h
  obtain ⟨xs, υ, ys, rfl, hxs, hys⟩ := hscan.exists_of_append
  have hmap : (r.shiftAfter after 1).subjects = root ++ (xs ++ ys.map (shifted after)) := by
    rw [← map_append_eq hroot hxs (fun s => shifted_of_before hnext), ← hsubjects]
    rfl
  refine ⟨root, _, τ, hmap, hroot.of_any (any_isSheetLine_insert (hl .sheet)), hxs.append ?_⟩
  exact .other (Scope.introduced?_eq_none hl) (Scans.shifted hys (by omega))

theorem insertOrdered_append {s : Subject} {xs ys : List Subject}
    (hxs : ∀ x ∈ xs, ¬ s.handle.before x.handle = true)
    (hys : ∀ y, ys.head? = some y → s.handle.before y.handle = true) :
    insertOrdered s (xs ++ ys) = xs ++ s :: ys := by
  induction xs with
  | nil =>
    cases ys with
    | nil => rfl
    | cons y ys => exact if_pos (hys y rfl)
  | cons x xs ih =>
    obtain ⟨hx, hxs⟩ := List.forall_mem_cons.mp hxs
    rw [List.cons_append, insertOrdered, if_neg hx, ih hxs]
    rfl

private theorem insertOrdered_between {s : Subject} {n : Nat} {σ τ υ φ : Scope}
    {xs ys : List Subject} (hs : s.handle = .line n) (hroot : IsRoot ls root)
    (hxs : Scans 0 σ as xs τ) (hle : as.length ≤ n) (hys : Scans (n + 1) υ bs ys φ) :
    insertOrdered s (root ++ (xs ++ ys)) = root ++ (xs ++ s :: ys) := by
  have hbefore : ∀ x ∈ root ++ xs, ¬ s.handle.before x.handle = true := by
    intro x hx
    rw [hs]
    rcases List.mem_append.mp hx with hx | hx
    · rw [(hroot.eq_of_mem hx).1]
      exact Bool.false_ne_true
    · obtain ⟨k, hlt, hk⟩ := hxs.exists_lt hx
      rw [hk, Handle.before, decide_eq_true_eq]
      omega
  have hbehind : ∀ y, ys.head? = some y → s.handle.before y.handle = true := by
    intro y hy
    obtain ⟨k, -, hk⟩ := hys.exists_lt (List.mem_of_head? hy)
    rw [hs, hk, Handle.before, decide_eq_true_eq]
    omega
  rw [← List.append_assoc, insertOrdered_append hbefore hbehind, List.append_assoc]

theorem Scanned.exists_after_input (h : r.Scanned ls) {s : Subject} (hs : s ∈ r.subjects) {n : Nat}
    (hn : s.handle = .line n) (hkind : s.kind = .input) :
    ∃ root xs ys υ τ, r.subjects = root ++ (xs ++ ys) ∧ IsRoot ls root ∧
      Scans 0 ⟨root.head?.map Subject.id, none⟩ (ls.take (n + 1)) xs υ ∧
      Scans (n + 1) υ (ls.drop (n + 1)) ys τ ∧ υ.input = some s.id ∧
      (ls.take (n + 1)).length = n + 1 := by
  obtain ⟨root, ss, τ, hsubjects, hroot, hscan⟩ := h
  have hmem : s ∈ ss := by
    rcases List.mem_append.mp (hsubjects ▸ hs) with hs | hs
    · rw [(hroot.eq_of_mem hs).1] at hn
      simp at hn
    · exact hs
  obtain ⟨as, m, bs, xs, ys, υ, rfl, rfl, hxs, hform, hm, hys⟩ := hscan.exists_of_mem hmem
  rw [hkind] at hform hm hys
  obtain rfl : as.length = n := by
    rw [hform, Nat.zero_add, Handle.line.injEq] at hn
    exact hn
  rw [Nat.zero_add] at hform hys
  have hlen : (as ++ [m]).length = as.length + 1 := by simp
  have htake : (as ++ m :: bs).take (as.length + 1) = as ++ [m] := by
    rw [List.append_cons as m bs, ← hlen, List.take_left]
  have hdrop : (as ++ m :: bs).drop (as.length + 1) = bs := by
    rw [List.append_cons as m bs, ← hlen, List.drop_left]
  rw [htake, hdrop]
  refine ⟨root, xs ++ [s], ys, υ.enter s.id .input, τ, ?_, hroot, hxs.append ?_, hys, rfl, hlen⟩
  · rw [List.append_assoc xs, List.singleton_append, hsubjects]
  · rw [hform, Nat.zero_add]
    exact .subject s.id hm (.nil _ _)

/-- A sprite line is inserted right after an input, and the sprite of the input registered. -/
theorem Scanned.insertSprite (h : r.Scanned ls) {s : Subject} (hs : s ∈ r.subjects) {n : Nat}
    (hn : s.handle = .line n) (hkind : s.kind = .input)
    (hl : l.definition = SubjectKind.sprite.token) :
    ((r.shiftAfter (.line n) 1).add .sprite (.line (n + 1)) (some s.id)).Scanned
      (ls.take (n + 1) ++ l :: ls.drop (n + 1)) := by
  obtain ⟨root, xs, ys, υ, τ, hsubjects, hroot, hxs, hys, hinput, hlen⟩ :=
    h.exists_after_input hs hn hkind
  have hafter : Scans (n + 1 + 1) υ (ls.drop (n + 1)) (ys.map (shifted (.line n))) τ :=
    Scans.shifted hys (Nat.le_refl _)
  have hmap : (r.shiftAfter (.line n) 1).subjects = root ++ (xs ++ ys.map (shifted (.line n))) := by
    have hnext : (Handle.line n).next = (ls.take (n + 1)).length := hlen.symm
    rw [← map_append_eq hroot hxs (fun s => shifted_of_before hnext), ← hsubjects]
    rfl
  have hadd : ((r.shiftAfter (.line n) 1).add .sprite (.line (n + 1)) υ.input).subjects =
      root ++ (xs ++ ⟨r.nextId, .sprite, .line (n + 1), υ.input⟩ :: ys.map (shifted (.line n))) := by
    have hbetween := insertOrdered_between (s := ⟨r.nextId, .sprite, .line (n + 1), υ.input⟩) rfl
      hroot hxs hlen.le hafter
    rw [← hmap] at hbetween
    exact hbetween
  have hintroduced : υ.introduced? l = some .sprite :=
    Scope.introduced?_eq_some_iff.mpr ⟨hl, by simp, fun _ => by simp [hinput]⟩
  have hany : ls.any isSheetLine =
      (ls.take (n + 1) ++ l :: ls.drop (n + 1)).any isSheetLine := by
    rw [← any_isSheetLine_insert (by simp [hl]), List.take_append_drop]
  rw [← hinput]
  refine ⟨root, _, τ, hadd, hroot.of_any hany, hxs.append ?_⟩
  rw [hlen, Nat.zero_add]
  exact .subject r.nextId hintroduced hafter

private theorem gone_eq {σ τ υ φ : Scope} {xs ys zs : List Subject}
    (hsubjects : r.subjects = root ++ (xs ++ (ys ++ zs))) (hroot : IsRoot ls root)
    (hxs : Scans 0 σ as xs τ) (hys : Scans as.length τ bs ys υ)
    (hzs : Scans (as.length + bs.length) υ cs zs φ) :
    r.gone as.length (as.length + bs.length) = ys.map Subject.id := by
  have hleft : root.filter (standsIn as.length (as.length + bs.length)) = [] := by
    refine List.filter_eq_nil_iff.mpr fun s hs => ?_
    rw [(hroot.eq_of_mem hs).1]
    exact Bool.false_ne_true
  have hbefore : xs.filter (standsIn as.length (as.length + bs.length)) = [] := by
    refine List.filter_eq_nil_iff.mpr fun s hs => ?_
    obtain ⟨m, hlt, hm⟩ := hxs.exists_lt hs
    simp only [standsIn, hm, Bool.and_eq_true, decide_eq_true_eq]
    omega
  have hin : ys.filter (standsIn as.length (as.length + bs.length)) = ys := by
    refine List.filter_eq_self.mpr fun s hs => ?_
    obtain ⟨m, hlt, hm⟩ := hys.exists_lt hs
    simp only [standsIn, hm, Bool.and_eq_true, decide_eq_true_eq]
    omega
  have hbehind : zs.filter (standsIn as.length (as.length + bs.length)) = [] := by
    refine List.filter_eq_nil_iff.mpr fun s hs => ?_
    obtain ⟨m, -, hm⟩ := hzs.exists_lt hs
    simp only [standsIn, hm, Bool.and_eq_true, decide_eq_true_eq]
    omega
  rw [gone, hsubjects, List.filter_append, List.filter_append, List.filter_append, hleft, hbefore,
    hin, hbehind, List.append_nil, List.nil_append, List.nil_append]

private def movedUp (start stop : Nat) (s : Subject) : Subject :=
  { s with
    handle :=
      match s.handle with
      | .root => .root
      | .line n => if stop ≤ n then .line (n - (stop - start)) else .line n }

private theorem moveAfter_eq_movedUp {start stop : Nat} {gone : List SubjectId} {s : Subject}
    (h : ∀ p, s.parent = some p → p ∉ gone) :
    moveAfter stop gone (· - (stop - start)) s = movedUp start stop s := by
  have hparent : s.parent.filter (fun p => !gone.contains p) = s.parent := by
    cases hp : s.parent with
    | none => rfl
    | some p => simp [Option.filter, h p hp]
  exact congrArg (fun parent => { movedUp start stop s with parent }) hparent

private theorem movedUp_of_before {start stop : Nat} (hle : start ≤ stop) {s : Subject}
    (hs : s.handle.before (.line start) = true) : movedUp start stop s = s := by
  obtain ⟨id, kind, handle, parent⟩ := s
  cases handle with
  | root => rfl
  | line n =>
    simp only [Handle.before, decide_eq_true_eq] at hs
    simp only [movedUp]
    rw [if_neg (by omega)]

private theorem Scans.movedUp {start stop : Nat} {σ υ : Scope} {zs : List Subject}
    (h : Scans stop σ cs zs υ) (hle : start ≤ stop) :
    Scans start σ cs (zs.map (Registry.movedUp start stop)) υ := by
  refine h.shift fun s _ k hk => ?_
  have hline : stop + k - (stop - start) = start + k := by omega
  simp only [Registry.movedUp, hk]
  rw [if_pos (Nat.le_add_right stop k), hline]

private theorem filter_kept_eq {xs ys zs : List Subject}
    (hids : ((xs ++ (ys ++ zs)).map Subject.id).Nodup) :
    (∀ s ∈ xs ++ zs, s.id ∉ ys.map Subject.id) ∧
      (xs ++ (ys ++ zs)).filter (fun s => !(ys.map Subject.id).contains s.id) = xs ++ zs := by
  have hperm : (xs ++ (ys ++ zs)).Perm (ys ++ (xs ++ zs)) := List.perm_append_comm_assoc xs ys zs
  rw [(hperm.map Subject.id).nodup_iff, List.map_append, List.nodup_append] at hids
  have hkept : ∀ s ∈ xs ++ zs, s.id ∉ ys.map Subject.id :=
    fun s hs hmem => hids.2.2 _ hmem _ (List.mem_map_of_mem hs) rfl
  refine ⟨hkept, ?_⟩
  have hys : ys.filter (fun s => !(ys.map Subject.id).contains s.id) = [] := by
    refine List.filter_eq_nil_iff.mpr fun s hs => ?_
    simpa using ⟨s, hs, rfl⟩
  have hrest : (xs ++ zs).filter (fun s => !(ys.map Subject.id).contains s.id) = xs ++ zs :=
    List.filter_eq_self.mpr fun s hs => by simpa using hkept s hs
  rw [List.filter_append] at hrest
  rw [List.filter_append, List.filter_append, hys, List.nil_append, hrest]

/-- Lines are deleted that hold no sheet. Inputs among them are nobody's: the lines that follow are
detached. -/
theorem Scanned.delete (h : r.Scanned (as ++ (bs ++ cs)))
    (hids : (r.subjects.map Subject.id).Nodup) (hsheet : ∀ l ∈ bs, isSheetLine l = false)
    (hinput : (∀ l ∈ bs, l.definition ≠ SubjectKind.input.token) ∨ Detached cs) :
    (r.deleteLines as.length (as.length + bs.length)).Scanned (as ++ cs) := by
  obtain ⟨root, ss, φ, hsubjects, hroot, hscan⟩ := h
  obtain ⟨xs, τ, ss, rfl, hxs, hss⟩ := hscan.exists_of_append
  obtain ⟨ys, υ, zs, rfl, hys, hzs⟩ := hss.exists_of_append
  rw [Nat.zero_add] at hys hzs
  have hany : (as ++ (bs ++ cs)).any isSheetLine = (as ++ cs).any isSheetLine := by
    have hbs : bs.any isSheetLine = false := by
      rw [List.any_eq_false]
      exact fun l hl => Bool.eq_false_iff.mp (hsheet l hl)
    rw [List.any_append, List.any_append, List.any_append, hbs, Bool.false_or]
  obtain ⟨ψ, hlast⟩ : ∃ ψ, Scans (as.length + bs.length) { υ with input := τ.input } cs zs ψ := by
    rcases hinput with hnone | hdetached
    · exact ⟨φ, hys.input_eq hnone ▸ hzs⟩
    · exact hzs.of_detached hdetached τ.input
  rw [hys.sheet_eq hsheet] at hlast
  have hle : as.length ≤ as.length + bs.length := Nat.le_add_right _ _
  have hmap := map_append_eq hroot hxs (fun s => movedUp_of_before hle) zs
  have hnew : Scanned ⟨(root ++ (xs ++ zs)).map (movedUp as.length (as.length + bs.length)),
      r.nextId⟩ (as ++ cs) := by
    refine ⟨root, _, ψ, hmap, hroot.of_any hany, hxs.append ?_⟩
    rw [Nat.zero_add]
    exact Scans.movedUp hlast hle
  have hgone := gone_eq hsubjects hroot hxs hys hzs
  rw [← List.append_assoc] at hsubjects hnew
  obtain ⟨hkept, hfilter⟩ := filter_kept_eq (hsubjects ▸ hids)
  -- What a subject belongs to is found by the new scan, so it is not gone.
  have hparent : ∀ s ∈ root ++ xs ++ zs, ∀ p, s.parent = some p → p ∉ ys.map Subject.id := by
    intro s hs p hp
    obtain ⟨q, hq, rfl, -⟩ := hnew.owned (List.mem_map_of_mem hs) hp
    obtain ⟨q, hold, rfl⟩ := List.mem_map.mp hq
    exact hkept q hold
  have hdelete : (r.deleteLines as.length (as.length + bs.length)).subjects =
      (root ++ xs ++ zs).map (movedUp as.length (as.length + bs.length)) := by
    rw [subjects_deleteLines, hgone, hsubjects, hfilter]
    exact List.map_congr_left fun s hs => moveAfter_eq_movedUp (hparent s hs)
  rw [Scanned, hdelete]
  exact hnew

end Registry
end SpriteConfig
