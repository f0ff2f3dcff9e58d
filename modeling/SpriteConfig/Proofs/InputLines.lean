import SpriteConfig.Proofs.Forest
import SpriteConfig.Proofs.Scan
/-!
# Where the inputs are

The registry and the outline tell by rules of their own which lines are inputs. For the registry the
word up to the next space or tab is the definition of a line. For the outline a name ends where the
letters and hyphens end, so that a line on which another character runs on from the name is listed
as well. Every registered input is in the outline, and the two agree exactly where no line runs on.
-/
namespace SpriteConfig

/-- Whether a text starts, after its indentation, with a name from which its first word runs on with
a character that is neither a letter nor a hyphen. -/
def Text.RunsOn (t name : Text) : Prop :=
  ∃ indent c rest, t = indent ++ name ++ c :: rest ∧ indent.IsIndentation ∧ isNameChar c = false ∧
    isIndent c = false

section Words

variable {t indent name rest : Text} {l : Line}

theorem Line.Settled.definition_eq_iff (h : l.Settled) (hn : name.IsWord) :
    l.definition = name ↔ ∃ indent rest, l.text = indent ++ name ++ rest ∧
      indent.IsIndentation ∧ ∀ c, rest.head? = some c → Text.isIndent c = true := by
  have hdef := (h 0).definition_eq
  constructor
  · rintro rfl
    rcases parse_cases l.text with hnone | ⟨indent, name, rest, ht, hi, hname, hr⟩
    · rw [hnone] at hdef
      exact absurd hdef hn.ne_nil
    · rw [ht, parse_of_word hi hname hr] at hdef
      dsimp only at hdef
      exact ⟨indent, rest, hdef ▸ ht, hi, hr⟩
  · rintro ⟨indent, rest, ht, hi, hr⟩
    rw [hdef, ht, parse_of_word hi hn hr]

theorem Text.heads_of_ends (ht : t = indent ++ name ++ rest) (hi : indent.IsIndentation)
    (hname : name ∈ structuralNames) (hr : ∀ c, rest.head? = some c → isIndent c = true) :
    t.Heads indent name rest := by
  refine ⟨ht, hi, hname, fun c hc => ?_⟩
  by_contra hchar
  rw [Bool.not_eq_false] at hchar
  have hindent := isIndent_of_isNameChar hchar
  rw [hr c hc] at hindent
  cases hindent

theorem Text.exists_heads_iff (hname : name ∈ structuralNames) :
    (∃ indent rest, t.Heads indent name rest) ↔
      (∃ indent rest, t = indent ++ name ++ rest ∧ indent.IsIndentation ∧
        ∀ c, rest.head? = some c → isIndent c = true) ∨ t.RunsOn name := by
  constructor
  · rintro ⟨indent, rest, hheads⟩
    cases rest with
    | nil => exact .inl ⟨indent, [], hheads.text_eq, hheads.isIndentation, by simp⟩
    | cons c rest =>
      cases hc : isIndent c with
      | true => exact .inl ⟨indent, c :: rest, hheads.text_eq, hheads.isIndentation, by simpa⟩
      | false =>
        have hends := hheads.name_ends c rfl
        exact .inr ⟨indent, c, rest, hheads.text_eq, hheads.isIndentation, hends, hc⟩
  · rintro (⟨indent, rest, ht, hi, hr⟩ | ⟨indent, c, rest, ht, hi, hc, -⟩)
    · exact ⟨indent, rest, heads_of_ends ht hi hname hr⟩
    · exact ⟨indent, c :: rest, ht, hi, hname, by simpa⟩

theorem Text.RunsOn.ne_of_ends (h : t.RunsOn name) (hname : name ∈ structuralNames)
    (hr : ∀ c, rest.head? = some c → isIndent c = true) (hi : indent.IsIndentation) :
    t ≠ indent ++ name ++ rest := by
  intro ht
  obtain ⟨indent', c, rest', ht', hi', hchar, hc⟩ := h
  have hends := heads_of_ends ht hi hname hr
  have hruns : t.Heads indent' name (c :: rest') := ⟨ht', hi', hname, by simpa⟩
  have hrest : rest = c :: rest' :=
    List.append_cancel_left (hends.dropWhile_eq.symm.trans hruns.dropWhile_eq)
  rw [hr c (by rw [hrest, List.head?_cons])] at hc
  cases hc

end Words

section Registered

variable {n m : Nat} {σ τ : Scope} {l : Line} {ls : List Line} {ss : List Subject}

theorem Scans.exists_input (h : Scans n σ ls ss τ) (hl : ls[m]? = some l)
    (hdef : l.definition = SubjectKind.input.token) :
    ∃ s ∈ ss, s.kind = .input ∧ s.handle = .line (n + m) := by
  have hintroduced (σ : Scope) : σ.introduced? l = some .input :=
    Scope.introduced?_eq_some_iff.mpr ⟨hdef, by simp, by simp⟩
  induction h generalizing m with
  | nil => simp at hl
  | @subject n σ τ k ls ss kind id hk _ ih =>
    cases m with
    | zero =>
      obtain rfl : k = l := Option.some.inj hl
      refine ⟨_, List.mem_cons_self, ?_, rfl⟩
      exact Option.some.inj (hk.symm.trans (hintroduced σ))
    | succ m =>
      obtain ⟨s, hs, hkind, hhandle⟩ := ih hl
      refine ⟨s, List.mem_cons_of_mem _ hs, hkind, ?_⟩
      rw [hhandle, Nat.add_assoc, Nat.add_comm 1]
  | @other n σ τ k ls ss hk _ ih =>
    cases m with
    | zero =>
      obtain rfl : k = l := Option.some.inj hl
      rw [hintroduced σ] at hk
      cases hk
    | succ m =>
      obtain ⟨s, hs, hkind, hhandle⟩ := ih hl
      refine ⟨s, hs, hkind, ?_⟩
      rw [hhandle, Nat.add_assoc, Nat.add_comm 1]

def Registry.inputLines (r : Registry) : List Nat := r.inputs.filterMap r.line?

theorem Registry.mem_inputLines_ofLines :
    n ∈ (ofLines ls).inputLines ↔
      ∃ l, ls[n]? = some l ∧ l.definition = SubjectKind.input.token := by
  have hnodup : ((ofLines ls).subjects.map Subject.id).Nodup := by
    rw [ofLines_map_id]
    exact List.nodup_range
  simp only [inputLines, inputs, List.mem_filterMap, mem_ofKind_iff]
  constructor
  · rintro ⟨_, ⟨s, hs, hkind, rfl⟩, hline⟩
    rw [line?, handle?_of_mem hnodup hs, Option.bind_some] at hline
    cases hhandle : s.handle with
    | root =>
      rw [hhandle] at hline
      cases hline
    | line m =>
      rw [hhandle] at hline
      obtain rfl : m = n := Option.some.inj hline
      obtain ⟨l, hl, hdef⟩ := stands_ofLines ls s hs m hhandle
      exact ⟨l, hl, hkind ▸ hdef⟩
  · rintro ⟨l, hl, hdef⟩
    obtain ⟨root, ss, τ, hsubjects, -, hscan⟩ := scanned_ofLines ls
    obtain ⟨s, hs, hkind, hhandle⟩ := hscan.exists_input hl hdef
    rw [Nat.zero_add] at hhandle
    have hmem : s ∈ (ofLines ls).subjects := hsubjects ▸ List.mem_append_right root hs
    refine ⟨s.id, ⟨s, hmem, hkind, rfl⟩, ?_⟩
    rw [line?, handle?_of_mem hnodup hmem, Option.bind_some, hhandle]
    rfl

end Registered

namespace Outline

def inputLines (ts : List Outline) : List Nat :=
  ((preorderAll ts).filter fun h => h.name = SubjectKind.input.token).map Heading.line

theorem mem_inputLines_ofLines {ls : List Line} (hlf : ∀ l ∈ ls, '\n' ∉ l.text) {n : Nat} :
    n ∈ inputLines (ofLines ls) ↔
      ∃ l, ls[n]? = some l ∧ ∃ indent rest, l.text.Heads indent SubjectKind.input.token rest := by
  have hnamed := exists_heading_named_iff hlf n
  simp only [inputLines, ofLines, preorderAll_ofHeadings, List.mem_map, List.mem_filter,
    decide_eq_true_eq]
  constructor
  · rintro ⟨h, ⟨hh, hname⟩, hline⟩
    obtain ⟨l, indent, rest, hl, hheads, -⟩ :=
      (hnamed h.level SubjectKind.input.token).mp ⟨h, hh, hline, rfl, hname⟩
    exact ⟨l, hl, indent, rest, hheads⟩
  · rintro ⟨l, hl, indent, rest, hheads⟩
    obtain ⟨h, hh, hline, -, hname⟩ :=
      (hnamed indent.length _).mpr ⟨l, indent, rest, hl, hheads, rfl⟩
    exact ⟨h, ⟨hh, hname⟩, hline⟩

section Agreement

variable {ls : List Line} {l : Line} {n : Nat}

theorem not_runsOn_of_definition (hl : l.Settled) (hdef : l.definition = SubjectKind.input.token) :
    ¬ l.text.RunsOn SubjectKind.input.token := by
  intro hruns
  obtain ⟨indent, rest, ht, hi, hr⟩ := (hl.definition_eq_iff (by decide)).mp hdef
  exact hruns.ne_of_ends (by decide) hr hi ht

/-- The outline has the lines of the registered inputs, and those that run on. -/
theorem mem_inputLines_iff_registered (hls : ∀ l ∈ ls, l.Settled ∧ '\n' ∉ l.text) :
    n ∈ inputLines (ofLines ls) ↔ n ∈ (Registry.ofLines ls).inputLines ∨
      ∃ l, ls[n]? = some l ∧ l.text.RunsOn SubjectKind.input.token := by
  rw [mem_inputLines_ofLines fun l hl => (hls l hl).2, Registry.mem_inputLines_ofLines, ← exists_or]
  refine exists_congr fun l => ?_
  rw [← and_or_left]
  refine and_congr_right fun hl => ?_
  have hsettled := (hls l (List.mem_of_getElem? hl)).1
  rw [Text.exists_heads_iff (by decide), hsettled.definition_eq_iff (by decide)]

theorem mem_inputLines_not_registered_iff (hls : ∀ l ∈ ls, l.Settled ∧ '\n' ∉ l.text) :
    n ∈ inputLines (ofLines ls) ∧ n ∉ (Registry.ofLines ls).inputLines ↔
      ∃ l, ls[n]? = some l ∧ l.text.RunsOn SubjectKind.input.token := by
  rw [mem_inputLines_iff_registered hls]
  constructor
  · rintro ⟨hn, hnot⟩
    exact hn.resolve_left hnot
  · rintro ⟨l, hl, hruns⟩
    refine ⟨.inr ⟨l, hl, hruns⟩, fun hn => ?_⟩
    obtain ⟨m, hm, hdef⟩ := Registry.mem_inputLines_ofLines.mp hn
    obtain rfl : l = m := Option.some.inj (hl.symm.trans hm)
    exact not_runsOn_of_definition (hls l (List.mem_of_getElem? hl)).1 hdef hruns

/-- Every registered input is in the outline, and of the other lines the outline has those on which
a word runs on from the name of an input. So outline and registry agree on the inputs of a text
exactly if it has no such line. -/
theorem inputLines_agree_iff (source : Text) (options : Options) :
    let d := Document.parse source options
    let outlined := inputLines (ofLines d.lines)
    let registered := d.registry.inputLines
    (∀ n ∈ registered, n ∈ outlined) ∧
      (∀ n, n ∈ outlined ∧ n ∉ registered ↔
        ∃ l, d.lines[n]? = some l ∧ l.text.RunsOn SubjectKind.input.token) ∧
      ((∀ n, n ∈ outlined ↔ n ∈ registered) ↔
        ∀ l ∈ d.lines, ¬ l.text.RunsOn SubjectKind.input.token) := by
  intro d outlined registered
  have hlines : ∀ l ∈ d.lines, l.Settled ∧ '\n' ∉ l.text := fun l => settled_of_mem_readSource
  have hsubset : ∀ n ∈ registered, n ∈ outlined := fun n hn =>
    (mem_inputLines_iff_registered hlines).mpr (.inl hn)
  have hbeyond : ∀ n, n ∈ outlined ∧ n ∉ registered ↔
      ∃ l, d.lines[n]? = some l ∧ l.text.RunsOn SubjectKind.input.token := fun n =>
    mem_inputLines_not_registered_iff hlines
  refine ⟨hsubset, hbeyond, ?_⟩
  constructor
  · intro hagree l hl hruns
    obtain ⟨n, hn⟩ := List.mem_iff_getElem?.mp hl
    obtain ⟨hin, hout⟩ := (hbeyond n).mpr ⟨l, hn, hruns⟩
    exact hout ((hagree n).mp hin)
  · intro hnone n
    refine ⟨fun hn => ?_, hsubset n⟩
    by_contra hnot
    obtain ⟨l, hl, hruns⟩ := (hbeyond n).mp ⟨hn, hnot⟩
    exact hnone l (List.mem_of_getElem? hl) hruns

end Agreement

/-- The first word of the second line is no definition of an input, but starts with one. -/
theorem inputLines_differ_digit :
    ¬ ∀ n, n ∈ inputLines (ofLines (Document.parse "sheet\n  input2 a\n  input b".toList).lines) ↔
      n ∈ (Document.parse "sheet\n  input2 a\n  input b".toList).registry.inputLines := by
  intro hagree
  have houtlined : 1 ∈ inputLines
      (ofLines (Document.parse "sheet\n  input2 a\n  input b".toList).lines) := by
    rw [inputLines, ofLines, preorderAll_ofHeadings]
    decide
  have hregistered := (hagree 1).mp houtlined
  revert hregistered
  decide

end Outline
end SpriteConfig
