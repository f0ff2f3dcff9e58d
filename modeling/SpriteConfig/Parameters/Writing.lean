import SpriteConfig.Parameters.Place
/-!
# Writing parameters

A value that would not be read back as it is gets quotes: double ones, unless it holds one itself,
then single ones. A value with both kinds is written as runs that touch each other, each in the
quote that its characters allow.
-/
namespace SpriteConfig
namespace Parameters

/-- Whether a value has to be quoted: it is empty, it looks like a comment, or it holds white
space or a quote. -/
def mustQuote (value : Text) : Bool :=
  value.isEmpty || value.head? = some '#' || value.any fun c => Text.isSpace c || isQuote c

/-- The quote in which a character can stand, when `quote?` is the one at hand: a quote needs the
other kind, and any other character takes the quote at hand, or else a double one. -/
def quoteFor (quote? : Option Char) (c : Char) : Char :=
  if c = '"' then '\'' else if c = '\'' then '"' else quote?.getD '"'

/-- Writes characters as quoted runs, the first of them in the run of `quote?`. -/
def quotedRuns : Option Char → Text → Text
  | quote?, [] => quote?.toList
  | quote?, c :: t =>
    let q := quoteFor quote? c
    if quote? = some q then c :: quotedRuns quote? t
    else quote?.toList ++ q :: c :: quotedRuns (some q) t

def quote (value : Text) : Text :=
  if !mustQuote value then value
  else if !value.contains '"' then '"' :: value ++ ['"']
  else if !value.contains '\'' then '\'' :: value ++ ['\'']
  else quotedRuns none value

/-- A text without the pair of equal quotes around it, if there is one. -/
def unquote : Text → Text
  | [] => []
  | c :: t => if isQuote c && t.getLast? = some c then t.dropLast else c :: t

def format (values : List Text) : Text := Text.join [' '] (values.map quote)

end Parameters
end SpriteConfig
