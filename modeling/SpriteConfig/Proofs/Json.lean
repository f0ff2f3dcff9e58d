import Mathlib.Data.List.TakeWhile
import SpriteConfig.Json.Printer
import SpriteConfig.Json.Reader
import SpriteConfig.Options
/-!
# Values that are printed and read

The layout of a printed value does not matter: what is cut into tokens are the tokens of the value,
and they are read as the value again. Only a control character may come back as the UTF-16 unit that
it was written as.
-/
namespace SpriteConfig

/-- What a piece of a string is read as, once it is printed. -/
def StringPiece.reread : StringPiece → StringPiece
  | .char c =>
    if c.toNat < 0x20 ∧ c ∉ ['\x08', '\x0c', '\n', '\r', '\t'] then .unit c.toNat else .char c
  | .unit u => .unit (u % 0x10000)

theorem StringPiece.text?_unit_cons {u : Nat} (hu : u < 0xD800) (ps : List StringPiece) :
    text? (.unit u :: ps) = (text? ps).map (Char.ofNat u :: ·) := by
  have hhigh : ¬ (0xD800 ≤ u ∧ u ≤ 0xDBFF) := by omega
  have hlow : ¬ (0xDC00 ≤ u ∧ u ≤ 0xDFFF) := by omega
  have hunit : ¬ (0xD800 ≤ u ∧ u ≤ 0xDFFF) := by omega
  rcases ps with _ | ⟨_ | v, ps⟩
  · simp [text?, hunit]
  · simp [text?, hunit]
  · simp [text?, hhigh, hlow]

theorem StringPiece.text?_reread (t : Text) : text? ((t.map .char).map reread) = some t := by
  induction t with
  | nil => rfl
  | cons c t ih =>
    simp only [List.map_cons, reread]
    split
    · next hc =>
      rw [text?_unit_cons (by omega), ih, Char.ofNat_toNat]
      rfl
    · rw [text?, ih]
      rfl

namespace Json

mutual
/-- The tokens of a printed value. -/
def tokens : Json → List Token
  | null => [.scalar null]
  | bool b => [.scalar (bool b)]
  | number s => [.scalar (number s)]
  | string ps => [.string (ps.map StringPiece.reread)]
  | array [] => [.mark '[', .mark ']']
  | array (v :: vs) => .mark '[' :: (tokens v ++ (itemTokens vs ++ [.mark ']']))
  | object [] => [.mark '{', .mark '}']
  | object ((k, v) :: fs) =>
    .mark '{' :: .string (k.map StringPiece.reread) :: .mark ':' ::
      (tokens v ++ (fieldTokens fs ++ [.mark '}']))
def itemTokens : List Json → List Token
  | [] => []
  | v :: vs => .mark ',' :: (tokens v ++ itemTokens vs)
def fieldTokens : List (List StringPiece × Json) → List Token
  | [] => []
  | (k, v) :: fs =>
    .mark ',' :: .string (k.map StringPiece.reread) :: .mark ':' :: (tokens v ++ fieldTokens fs)
end

mutual
def reread : Json → Json
  | null => null
  | bool b => bool b
  | number s => number s
  | string ps => string (ps.map StringPiece.reread)
  | array vs => array (rereadItems vs)
  | object fs => object (rereadFields fs)
def rereadItems : List Json → List Json
  | [] => []
  | v :: vs => reread v :: rereadItems vs
def rereadFields : List (List StringPiece × Json) → List (List StringPiece × Json)
  | [] => []
  | (k, v) :: fs => (k.map StringPiece.reread, reread v) :: rereadFields fs
end

/-- Whether a character neither ends a bare token nor starts another one. -/
def IsBare (c : Char) : Prop := isSpace c = false ∧ isMark c = false ∧ c ≠ '"'

structure Spells (s : Text) (v : Json) : Prop where
  scalar : scalar? s = some v
  bare : ∀ c ∈ s, IsBare c

/-- Whether the numbers of a value are spelled as numbers are read. -/
def IsSpelled (ts : List Token) : Prop := ∀ s, Token.scalar (number s) ∈ ts → Spells s (number s)

/-- Whether a token can end where a text begins. -/
def EndsToken (t : Text) : Prop := ∀ c ∈ t.head?, isSpace c = true ∨ isMark c = true

section Tokens

variable {c : Char} {s t : Text} {v : Json} {ts : List Token}

theorem tokenize_bare (hs : ∀ c ∈ s, IsBare c) (ht : EndsToken t) {read : Text}
    (hv : scalar? (read.reverse ++ s) = some v) :
    tokenize ts (.bare read) (s ++ t) = tokenize (.scalar v :: ts) .between t := by
  induction s generalizing read with
  | nil =>
    rw [List.append_nil] at hv
    cases t with
    | nil => simp [tokenize, hv]
    | cons c t =>
      have hc : (isSpace c || isMark c || c = '"') = true := by
        rcases ht c rfl with h | h <;> simp [h]
      simp [tokenize, readChar, hc, hv]
  | cons c s ih =>
    obtain ⟨⟨hspace, hmark, hquote⟩, hs⟩ := List.forall_mem_cons.mp hs
    have hread : scalar? ((c :: read).reverse ++ s) = some v := by simpa using hv
    simpa [tokenize, readChar, hspace, hmark, hquote] using ih hs hread

theorem tokenize_scalar (hs : Spells s v) (ht : EndsToken t) :
    tokenize ts .between (s ++ t) = tokenize (.scalar v :: ts) .between t := by
  cases s with
  | nil =>
    have hnone : scalar? [] = none := rfl
    exact absurd (hnone.symm.trans hs.scalar) nofun
  | cons c s =>
    obtain ⟨⟨hspace, hmark, hquote⟩, hbare⟩ := List.forall_mem_cons.mp hs.bare
    have hrest : tokenize ts (.bare [c]) (s ++ t) = _ := tokenize_bare hbare ht hs.scalar
    simpa [tokenize, readChar, startToken, hspace, hmark, hquote] using hrest

theorem spells_null : Spells "null".toList null := ⟨rfl, by simp [IsBare, isSpace, isMark]⟩

theorem spells_true : Spells "true".toList (bool true) := ⟨rfl, by simp [IsBare, isSpace, isMark]⟩

theorem spells_false : Spells "false".toList (bool false) := ⟨rfl, by simp [IsBare, isSpace, isMark]⟩

theorem hexDigit?_hexDigit {n : Nat} (h : n < 16) : hexDigit? (hexDigit n) = some n := by
  revert n
  decide

theorem tokenize_codeEscape (u : Nat) (read : List StringPiece) :
    tokenize ts (.string read) (codeEscape u ++ t) =
      tokenize ts (.string (.unit (u % 0x10000) :: read)) t := by
  have hdigit (n : Nat) : hexDigit? (hexDigit (n % 16)) = some (n % 16) :=
    hexDigit?_hexDigit (Nat.mod_lt n (by decide))
  have hvalue : ((u / 0x1000 % 16 * 16 + u / 0x100 % 16) * 16 + u / 16 % 16) * 16 + u % 16 =
      u % 0x10000 := by
    omega
  simp [tokenize, readChar, codeEscape, hdigit, hvalue]

theorem tokenize_escapeChar (c : Char) (read : List StringPiece) :
    tokenize ts (.string read) (escapeChar c ++ t) =
      tokenize ts (.string ((StringPiece.char c).reread :: read)) t := by
  unfold escapeChar
  split
  case h_8 hquote hbackslash hbackspace hfeed hline hreturn htab =>
    split
    · next hlow =>
      have hnamed : c ∉ ['\x08', '\x0c', '\n', '\r', '\t'] := by
        simp only [List.mem_cons, List.not_mem_nil, or_false, not_or]
        exact ⟨hbackspace, hfeed, hline, hreturn, htab⟩
      rw [tokenize_codeEscape, Nat.mod_eq_of_lt (by omega), StringPiece.reread,
        if_pos ⟨hlow, hnamed⟩]
    · next hlow =>
      rw [List.singleton_append, tokenize, readChar, if_neg hquote, if_neg hbackslash, if_neg hlow,
        StringPiece.reread, if_neg fun h => hlow h.1]
  all_goals rfl

theorem tokenize_escapePiece (p : StringPiece) (read : List StringPiece) :
    tokenize ts (.string read) (escapePiece p ++ t) = tokenize ts (.string (p.reread :: read)) t := by
  cases p with
  | char c => exact tokenize_escapeChar c read
  | unit u => exact tokenize_codeEscape u read

theorem tokenize_quoted (ps : List StringPiece) :
    tokenize ts .between (quoted ps ++ t) =
      tokenize (.string (ps.map StringPiece.reread) :: ts) .between t := by
  have hbody : ∀ read : List StringPiece,
      tokenize ts (.string read) (ps.flatMap escapePiece ++ '"' :: t) =
        tokenize (.string (read.reverse ++ ps.map StringPiece.reread) :: ts) .between t := by
    induction ps with
    | nil =>
      intro read
      simp [tokenize, readChar]
    | cons p ps ih =>
      intro read
      rw [List.flatMap_cons, List.append_assoc, tokenize_escapePiece, ih]
      simp
  simpa [quoted, tokenize, readChar, startToken, isSpace, isMark] using hbody []

theorem tokenize_newLine (level : Nat) :
    tokenize ts .between (newLine level ++ t) = tokenize ts .between t := by
  have hspaces : ∀ n, tokenize ts .between (List.replicate n ' ' ++ t) = tokenize ts .between t := by
    intro n
    induction n with
    | zero => rfl
    | succ n ih => exact ih
  exact hspaces (2 * level)

theorem tokenize_space : tokenize ts .between (' ' :: t) = tokenize ts .between t := rfl

theorem endsToken_newLine (level : Nat) (t : Text) : EndsToken (newLine level ++ t) := by
  simp [EndsToken, newLine, isSpace]

theorem endsToken_prettyItems (ht : EndsToken t) (level : Nat) (vs : List Json) :
    EndsToken (prettyItems level vs ++ t) := by
  cases vs with
  | nil => simpa [prettyItems] using ht
  | cons v vs => simp [EndsToken, prettyItems, isMark]

theorem endsToken_prettyFields (ht : EndsToken t) (level : Nat)
    (fs : List (List StringPiece × Json)) : EndsToken (prettyFields level fs ++ t) := by
  rcases fs with _ | ⟨⟨k, v⟩, fs⟩
  · simpa [prettyFields] using ht
  · simp [EndsToken, prettyFields, isMark]

end Tokens

theorem tokenize_mark {c : Char} (hspace : isSpace c = false) (hmark : isMark c = true)
    (ts : List Token) (t : Text) :
    tokenize ts .between (c :: t) = tokenize (.mark c :: ts) .between t := by
  simp [tokenize, readChar, startToken, hspace, hmark]

theorem IsSpelled.left {ts us : List Token} (h : IsSpelled (ts ++ us)) : IsSpelled ts :=
  fun s hs => h s (List.mem_append_left us hs)

theorem IsSpelled.right {ts us : List Token} (h : IsSpelled (ts ++ us)) : IsSpelled us :=
  fun s hs => h s (List.mem_append_right ts hs)

theorem IsSpelled.tail {t : Token} {ts : List Token} (h : IsSpelled (t :: ts)) : IsSpelled ts :=
  fun s hs => h s (List.mem_cons_of_mem t hs)

mutual
/-- A printed value is cut into its tokens, whatever its level. -/
theorem tokenize_prettyAt (level : Nat) (ts : List Token) {t : Text} (ht : EndsToken t) :
    ∀ v : Json, IsSpelled (tokens v) →
      tokenize ts .between (prettyAt level v ++ t) = tokenize ((tokens v).reverse ++ ts) .between t
  | null, _ => tokenize_scalar spells_null ht
  | bool true, _ => tokenize_scalar spells_true ht
  | bool false, _ => tokenize_scalar spells_false ht
  | number s, hv => tokenize_scalar (hv s List.mem_cons_self) ht
  | string ps, _ => tokenize_quoted ps
  | array [], _ => rfl
  | array (v :: vs), hv => by
    rw [tokens] at hv ⊢
    have hends := endsToken_newLine level (']' :: t)
    simp only [prettyAt, List.cons_append, List.append_assoc, List.nil_append]
    rw [tokenize_mark rfl rfl, tokenize_newLine,
      tokenize_prettyAt (level + 1) _ (endsToken_prettyItems hends _ vs) v hv.tail.left,
      tokenize_prettyItems (level + 1) _ hends vs hv.tail.right.left, tokenize_newLine,
      tokenize_mark rfl rfl]
    simp
  | object [], _ => rfl
  | object ((k, v) :: fs), hv => by
    rw [tokens] at hv ⊢
    have hends := endsToken_newLine level ('}' :: t)
    simp only [prettyAt, List.cons_append, List.append_assoc, List.nil_append]
    rw [tokenize_mark rfl rfl, tokenize_newLine, tokenize_quoted, tokenize_mark rfl rfl,
      tokenize_space, tokenize_prettyAt (level + 1) _ (endsToken_prettyFields hends _ fs) v
        hv.tail.tail.tail.left,
      tokenize_prettyFields (level + 1) _ hends fs hv.tail.tail.tail.right.left, tokenize_newLine,
      tokenize_mark rfl rfl]
    simp
theorem tokenize_prettyItems (level : Nat) (ts : List Token) {t : Text} (ht : EndsToken t) :
    ∀ vs : List Json, IsSpelled (itemTokens vs) →
      tokenize ts .between (prettyItems level vs ++ t) =
        tokenize ((itemTokens vs).reverse ++ ts) .between t
  | [], _ => rfl
  | v :: vs, hv => by
    rw [itemTokens] at hv ⊢
    simp only [prettyItems, List.cons_append, List.append_assoc]
    rw [tokenize_mark rfl rfl, tokenize_newLine,
      tokenize_prettyAt level _ (endsToken_prettyItems ht _ vs) v hv.tail.left,
      tokenize_prettyItems level _ ht vs hv.tail.right]
    simp
theorem tokenize_prettyFields (level : Nat) (ts : List Token) {t : Text} (ht : EndsToken t) :
    ∀ fs : List (List StringPiece × Json), IsSpelled (fieldTokens fs) →
      tokenize ts .between (prettyFields level fs ++ t) =
        tokenize ((fieldTokens fs).reverse ++ ts) .between t
  | [], _ => rfl
  | (k, v) :: fs, hv => by
    rw [fieldTokens] at hv ⊢
    simp only [prettyFields, List.cons_append, List.append_assoc, List.nil_append]
    rw [tokenize_mark rfl rfl, tokenize_newLine, tokenize_quoted, tokenize_mark rfl rfl,
      tokenize_space, tokenize_prettyAt level _ (endsToken_prettyFields ht _ fs) v
        hv.tail.tail.tail.left,
      tokenize_prettyFields level _ ht fs hv.tail.tail.tail.right]
    simp
end

theorem readTokens_itemOrEnd (frames : List Frame) (ts : List Token) (v : Json) :
    readTokens (.itemOrEnd, .array [] :: frames) (tokens v ++ ts) =
      readTokens (.value, .array [] :: frames) (tokens v ++ ts) := by
  rcases v with _ | _ | _ | _ | (_ | _) | (_ | _) <;> rfl

mutual
/-- The tokens of a value are read as the value. -/
theorem readTokens_tokens (frames : List Frame) (ts : List Token) :
    ∀ v : Json, readTokens (.value, frames) (tokens v ++ ts) =
      readTokens (.next (reread v), frames) ts
  | null => rfl
  | bool _ => rfl
  | number _ => rfl
  | string _ => rfl
  | array [] => rfl
  | array (v :: vs) => by
    have hitem := readTokens_itemOrEnd frames (itemTokens vs ++ .mark ']' :: ts) v
    have hvalue := readTokens_tokens (.array [] :: frames) (itemTokens vs ++ .mark ']' :: ts) v
    have hitems := readTokens_itemTokens frames ts [] (reread v) vs
    simpa [tokens, reread, rereadItems, readTokens, readToken, readValue] using
      hitem.trans (hvalue.trans hitems)
  | object [] => rfl
  | object ((k, v) :: fs) => by
    have hvalue := readTokens_tokens (.object [] (k.map StringPiece.reread) :: frames)
      (fieldTokens fs ++ .mark '}' :: ts) v
    have hfields := readTokens_fieldTokens frames ts [] (k.map StringPiece.reread) (reread v) fs
    simpa [tokens, reread, rereadFields, readTokens, readToken, readValue] using
      hvalue.trans hfields
theorem readTokens_itemTokens (frames : List Frame) (ts : List Token) (done : List Json)
    (v : Json) :
    ∀ vs : List Json, readTokens (.next v, .array done :: frames) (itemTokens vs ++ .mark ']' :: ts) =
      readTokens (.next (.array ((v :: done).reverse ++ rereadItems vs)), frames) ts
  | [] => by simp [itemTokens, rereadItems, readTokens, readToken]
  | w :: vs => by
    have hvalue := readTokens_tokens (.array (v :: done) :: frames)
      (itemTokens vs ++ .mark ']' :: ts) w
    have hitems := readTokens_itemTokens frames ts (v :: done) (reread w) vs
    simpa [itemTokens, rereadItems, readTokens, readToken] using hvalue.trans hitems
theorem readTokens_fieldTokens (frames : List Frame) (ts : List Token)
    (done : List (List StringPiece × Json)) (k : List StringPiece) (v : Json) :
    ∀ fs : List (List StringPiece × Json),
      readTokens (.next v, .object done k :: frames) (fieldTokens fs ++ .mark '}' :: ts) =
        readTokens (.next (.object (((k, v) :: done).reverse ++ rereadFields fs)), frames) ts
  | [] => by simp [fieldTokens, rereadFields, readTokens, readToken]
  | (l, w) :: fs => by
    have hvalue := readTokens_tokens
      (.object ((k, v) :: done) (l.map StringPiece.reread) :: frames)
      (fieldTokens fs ++ .mark '}' :: ts) w
    have hfields := readTokens_fieldTokens frames ts ((k, v) :: done) (l.map StringPiece.reread)
      (reread w) fs
    simpa [fieldTokens, rereadFields, readTokens, readToken] using hvalue.trans hfields
end

/-- What is printed of a value is read as the value, with any white space behind it. -/
theorem parse?_pretty {v : Json} (hv : IsSpelled (tokens v)) {gap : Text}
    (hgap : ∀ c ∈ gap, isSpace c = true) : parse? (v.pretty ++ gap) = some (reread v) := by
  have hends : EndsToken gap := fun c hc => .inl (hgap c (List.mem_of_mem_head? hc))
  have hspaces : ∀ ts, tokenize ts .between gap = some ts.reverse := by
    intro ts
    induction gap with
    | nil => rfl
    | cons c gap ih =>
      obtain ⟨hc, hrest⟩ := List.forall_mem_cons.mp hgap
      have hgap := ih hrest fun a ha => .inl (hrest a (List.mem_of_mem_head? ha))
      simpa [tokenize, readChar, startToken, hc] using hgap
  have hread := readTokens_tokens [] [] v
  rw [List.append_nil] at hread
  rw [parse?, pretty, tokenize_prettyAt 0 [] hends v hv, hspaces, List.append_nil,
    List.reverse_reverse, Option.bind_some, hread]
  rfl

section Numerals

variable {n : Nat}

theorem digits_eq_nil_of_head {t : Text} (h : Text.ofNat n = '0' :: t) : t = [] := by
  induction n using Nat.strongRecOn generalizing t with
  | _ n ih =>
    rw [Text.ofNat] at h
    by_cases hn : n < 10
    · rw [Nat.toDigits_of_lt_base hn] at h
      exact (List.cons.inj h).2.symm
    · rw [Nat.toDigits_of_base_le (by decide) (Nat.not_lt.mp hn)] at h
      obtain ⟨c, u, hdigits⟩ :=
        List.exists_cons_of_ne_nil (Nat.toDigits_ne_nil (n := n / 10) (b := 10))
      rw [hdigits, List.cons_append] at h
      obtain ⟨rfl, -⟩ := List.cons.inj h
      have hzero : n / 10 = 0 := by
        rw [← Nat.ofDigitChars_ten_toDigits (n := n / 10), hdigits, ih (n / 10) (by omega) hdigits]
        rfl
      omega

theorem isNumber_ofNat (n : Nat) : isNumber (Text.ofNat n) = true := by
  have hdigits : ∀ c ∈ Text.ofNat n, c.isDigit = true := fun c hc => Text.isDigit_of_mem_ofNat hc
  obtain ⟨c, t, ht⟩ := List.exists_cons_of_ne_nil (Nat.toDigits_ne_nil (n := n) (b := 10))
  have htext : Text.ofNat n = c :: t := ht
  rw [htext] at hdigits ⊢
  obtain ⟨hc, hrest⟩ := List.forall_mem_cons.mp hdigits
  have hunsigned : c ≠ '-' := by
    rintro rfl
    cases hc
  have hwhole : wholePart? (c :: t) = some [] := by
    by_cases hzero : c = '0'
    · subst hzero
      rw [wholePart?, digits_eq_nil_of_head htext]
    · have hdrop : t.dropWhile Char.isDigit = [] := List.dropWhile_eq_nil_iff.mpr hrest
      simp [wholePart?, hzero, digits?, hc, hdrop]
  unfold isNumber
  simp [hunsigned, hwhole, fraction?, exponent?]

theorem isBare_of_isDigit {c : Char} (h : c.isDigit = true) : IsBare c := by
  have hne : ∀ d : Char, d.isDigit = false → c ≠ d := by
    rintro d hd rfl
    rw [h] at hd
    cases hd
  simp [IsBare, isSpace, isMark, hne]

theorem spells_ofNat (n : Nat) : Spells (Text.ofNat n) (ofNat n) := by
  refine ⟨?_, fun c hc => isBare_of_isDigit (Text.isDigit_of_mem_ofNat hc)⟩
  have hname : ∀ name : Text, ¬ name.all Char.isDigit → Text.ofNat n ≠ name := by
    rintro name hname rfl
    exact hname (List.all_eq_true.mpr fun c hc => Text.isDigit_of_mem_ofNat hc)
  rw [scalar?, if_neg (hname _ (by decide)), if_neg (hname _ (by decide)),
    if_neg (hname _ (by decide)), if_pos (isNumber_ofNat n)]
  rfl

theorem nat?_ofNat {limit : Nat} (h : n ≤ limit) : nat? limit (ofNat n) = some n := by
  have hdigits : (Nat.toDigits 10 n).all Char.isDigit = true :=
    List.all_eq_true.mpr fun c hc => Text.isDigit_of_mem_ofNat hc
  simp [nat?, ofNat, hdigits, Nat.ofDigitChars_ten_toDigits, h]

end Numerals

end Json
end SpriteConfig
