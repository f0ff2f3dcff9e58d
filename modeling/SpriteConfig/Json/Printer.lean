import SpriteConfig.Json.Basic
/-!
# Printing JSON

Values are printed over several lines, each level two spaces deeper. An empty array or object takes
one line. Only quotes, backslashes and control characters are escaped.
-/
namespace SpriteConfig
namespace Json

def hexDigit (n : Nat) : Char := Nat.digitChar n

def codeEscape (u : Nat) : Text :=
  ['\\', 'u', hexDigit (u / 0x1000 % 16), hexDigit (u / 0x100 % 16), hexDigit (u / 16 % 16),
    hexDigit (u % 16)]

def escapeChar (c : Char) : Text :=
  match c with
  | '"' => ['\\', '"']
  | '\\' => ['\\', '\\']
  | '\x08' => ['\\', 'b']
  | '\x0c' => ['\\', 'f']
  | '\n' => ['\\', 'n']
  | '\r' => ['\\', 'r']
  | '\t' => ['\\', 't']
  | c => if c.toNat < 0x20 then codeEscape c.toNat else [c]

def escapePiece : StringPiece → Text
  | .char c => escapeChar c
  | .unit u => codeEscape u

def quoted (pieces : List StringPiece) : Text := '"' :: pieces.flatMap escapePiece ++ ['"']

def newLine (level : Nat) : Text := '\n' :: List.replicate (2 * level) ' '

mutual
/-- A value, of which all lines but the first stand at a level of nesting. -/
def prettyAt (level : Nat) : Json → Text
  | null => "null".toList
  | bool true => "true".toList
  | bool false => "false".toList
  | number spelling => spelling
  | string pieces => quoted pieces
  | array [] => "[]".toList
  | array (v :: vs) =>
    '[' :: newLine (level + 1) ++ prettyAt (level + 1) v ++ prettyItems (level + 1) vs ++
      newLine level ++ [']']
  | object [] => "{}".toList
  | object ((k, v) :: fs) =>
    '{' :: newLine (level + 1) ++ quoted k ++ [':', ' '] ++ prettyAt (level + 1) v ++
      prettyFields (level + 1) fs ++ newLine level ++ ['}']
def prettyItems (level : Nat) : List Json → Text
  | [] => []
  | v :: vs => ',' :: newLine level ++ prettyAt level v ++ prettyItems level vs
def prettyFields (level : Nat) : List (List StringPiece × Json) → Text
  | [] => []
  | (k, v) :: fs =>
    ',' :: newLine level ++ quoted k ++ [':', ' '] ++ prettyAt level v ++ prettyFields level fs
end

def pretty (v : Json) : Text := prettyAt 0 v

end Json
end SpriteConfig
