import SpriteConfig.Proofs.Property
import SpriteConfig.Proofs.Writes
/-!
# Documents and what is written of them

As long as definitions are words and nothing holds a line feed, the lines of a document agree with
what is read from its own text, whatever edits were made.
-/
namespace SpriteConfig

open List (Forall₂)

/-- Whether a text is a word without line feeds. -/
structure Text.IsToken (t : Text) : Prop extends t.IsWord where
  one_line : '\n' ∉ t

theorem Layout.isToken_token (l : Layout) : l.token.IsToken := by
  cases l <;> exact ⟨by decide, by decide⟩

namespace Document

variable {d d' : Document} {cs : List Change}

/-- Whether the lines of a document agree with what is read from their texts. -/
def Settled (d : Document) : Prop := ∀ l ∈ d.lines, l.Settled

def Lacks (d : Document) (c : Char) : Prop := ∀ l ∈ d.lines, c ∉ l.text

theorem Settled.step (hs : d.Settled) (hv : d.Valid) {c : Change} (hfits : c.Fits d)
    (hw : c.Writes Text.IsWord fun _ => True) (hstep : d.Step c d') : d'.Settled := by
  refine hstep.forall_lines hs ?_ fun _ hl hset => (hs _ hl).setParameters (hv.shaped _ hl) hset
  rintro h indent name values rfl
  exact Line.settled_make hfits hw.1 values

theorem Lacks.step {a : Char} (hindent : Text.isIndent a = false) (hquote : isQuote a = false)
    (hd : d.Lacks a) (hv : d.Valid) {c : Change} (hfits : c.Fits d)
    (hw : c.Writes (a ∉ ·) (a ∉ ·)) (hstep : d.Step c d') : d'.Lacks a := by
  refine hstep.forall_lines hd ?_ ?_
  · rintro h indent name values rfl
    exact Line.not_mem_make hfits hindent hquote hw.1 hw.2
  · rintro n values l l' rfl hl hset
    exact (hv.shaped l hl).not_mem_setParameters hset hindent hquote (hd l hl) hw

theorem Settled.follows (hs : d.Settled) (hv : d.Valid)
    (hw : ∀ c ∈ cs, c.Writes Text.IsWord fun _ => True) (h : d.Follows cs d') : d'.Settled := by
  refine (h.preserves (P := fun d => d.Valid ∧ d.Settled) ?_ ⟨hv, hs⟩ hw).2
  rintro d d' c ⟨hv, hs⟩ hfits hw hstep
  exact ⟨hv.step hfits hstep, hs.step hv hfits hw hstep⟩

theorem Lacks.follows {a : Char} (hindent : Text.isIndent a = false) (hquote : isQuote a = false)
    (hd : d.Lacks a) (hv : d.Valid) (hw : ∀ c ∈ cs, c.Writes (a ∉ ·) (a ∉ ·))
    (h : d.Follows cs d') : d'.Lacks a := by
  refine (h.preserves (P := fun d => d.Valid ∧ d.Lacks a) ?_ ⟨hv, hd⟩ hw).2
  rintro d d' c ⟨hv, hd⟩ hfits hw hstep
  exact ⟨hv.step hfits hstep, hd.step hindent hquote hv hfits hw hstep⟩

theorem settled_parse (source : Text) (options : Options) : (parse source options).Settled :=
  fun _ hl => (settled_of_mem_readSource hl).1

theorem lacks_parse (source : Text) (options : Options) : (parse source options).Lacks '\n' :=
  fun _ hl => (settled_of_mem_readSource hl).2

theorem lacks_of_not_mem {source : Text} {c : Char} (h : c ∉ source) (options : Options) :
    (parse source options).Lacks c := by
  intro l hl hmem
  exact h (LineBreak.mem_of_mem_split (e := .lf) (settled_of_mem_readLines hl).2 hmem)

theorem Lacks.not_mem_source {c : Char} (h : d.Lacks c) (hc : c ≠ '\n') : c ∉ d.source := by
  intro hmem
  rcases Text.mem_join hmem with hmem | ⟨t, ht, hmem⟩
  · exact hc (List.mem_singleton.mp hmem)
  · obtain ⟨l, hl, rfl⟩ := List.mem_map.mp ht
    exact h l hl hmem

/-- The lines of a document never drift from its text: after any edits, reading what is written of
the document gives lines that agree with its own, and both kinds of lookups find the same. -/
theorem performAll_reparses (source : Text) {options : Options} (ho : options.Indents)
    {es : List Edit} (hes : ∀ e ∈ es, e.Writes Text.IsToken ('\n' ∉ ·)) :
    ∃ d, (parse source options).performAll es = .ok d ∧
      (d.lines ≠ [] →
        Forall₂ Line.Agrees d.lines (readSource d.source) ∧
        ∀ s ∈ d.registry.subjects, ∀ name,
          (∃ found, d.findDirect? s.handle name = .ok found ∧
            { d with lines := readSource d.source }.findDirect? s.handle name = .ok found) ∧
          ∃ found, d.findCommon? s.handle name = .ok found ∧
            { d with lines := readSource d.source }.findCommon? s.handle name = .ok found) := by
  have hv := valid_parse source ho
  obtain ⟨cs, d, hperform, hfollows, hw⟩ :=
    hv.exists_performAll Layout.isToken_token (Text.not_mem_ofNat rfl) hes
  have hs : d.Settled := (settled_parse source options).follows hv
    (fun c hc => (hw c hc).imp (fun _ h => h.toIsWord) fun _ _ => trivial) hfollows
  have hlf : d.Lacks '\n' := (lacks_parse source options).follows rfl rfl hv
    (fun c hc => (hw c hc).imp (fun _ h => h.one_line) fun _ h => h) hfollows
  refine ⟨d, hperform, fun hne => ?_⟩
  have ha := forall₂_readSource_writeSource hne hs hlf
  have hv' := hv.follows hfollows
  refine ⟨ha, fun s hmem name => ?_⟩
  have hdefined := hv'.defined hmem
  obtain ⟨direct, hdirect, -⟩ := exists_findDirect? hdefined.inside name
  obtain ⟨common, hcommon, -⟩ := exists_findCommon? hdefined.inside name
  exact ⟨⟨direct, hdirect, (findDirect?_congr ha hdefined name).trans hdirect⟩,
    ⟨common, hcommon, (findCommon?_congr ha hdefined name).trans hcommon⟩⟩

/-- The comment line keeps the level that it was read with, and is found on another one. -/
theorem performAll_reparses_stale_level :
    ({} : Options).Indents ∧
      (∀ e ∈ [Edit.writeProperty 1 "tag".toList ["a b".toList, "#c".toList],
          .deleteProperty 1 ['x'], .setLayout 1 .grid], e.Writes Text.IsToken ('\n' ∉ ·)) ∧
      ∃ d, (parse "input a # first\n# note\n  atlas\n".toList).performAll
          [.writeProperty 1 "tag".toList ["a b".toList, "#c".toList], .deleteProperty 1 ['x'],
            .setLayout 1 .grid] = .ok d ∧
        d.lines.map Line.level = [0, 2, 2, 0, 2] ∧
        (readSource d.source).map Line.level = [0, 2, 2, 2, 2] ∧
        Forall₂ Line.Agrees d.lines (readSource d.source) := by
  have hes : ∀ e ∈ [Edit.writeProperty 1 "tag".toList ["a b".toList, "#c".toList],
      .deleteProperty 1 ['x'], .setLayout 1 .grid], e.Writes Text.IsToken ('\n' ∉ ·) := by
    simp only [List.forall_mem_cons, List.not_mem_nil, false_implies, implies_true, and_true]
    exact ⟨⟨⟨by decide, by decide⟩, by decide⟩, trivial, trivial⟩
  obtain ⟨d, hd, ha⟩ :=
    performAll_reparses "input a # first\n# note\n  atlas\n".toList Options.indents_default hes
  have hlevels : ((parse "input a # first\n# note\n  atlas\n".toList).performAll
      [.writeProperty 1 "tag".toList ["a b".toList, "#c".toList], .deleteProperty 1 ['x'],
        .setLayout 1 .grid]).map (fun d => (d.lines.map Line.level,
          (readSource d.source).map Line.level)) = .ok ([0, 2, 2, 0, 2], [0, 2, 2, 2, 2]) := by
    decide
  rw [hd] at hlevels
  obtain ⟨hown, hread⟩ := Prod.mk.inj (Except.ok.inj hlevels)
  refine ⟨Options.indents_default, hes, d, hd, hown, hread, (ha ?_).1⟩
  rintro hnil
  rw [hnil] at hown
  cases hown

end Document
end SpriteConfig
