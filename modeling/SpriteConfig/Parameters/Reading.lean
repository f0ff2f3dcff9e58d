import SpriteConfig.Parameters.Place
/-!
# Reading parameters

Quotes are dropped and runs that touch each other are one parameter. Reading never fails.
-/
namespace SpriteConfig
namespace Parameters

/-- Reads on from a place: the rest of the parameter at hand, and the parameters after it. Outside
of a parameter the first part is empty. -/
def readFrom : Place → Text → Text × List Text
  | _, [] => ([], [])
  | p, c :: t =>
    let (rest, later) := readFrom (p.next c) t
    let rest := if p.keeps c then c :: rest else rest
    if p = .between ∧ p.next c ≠ .between then ([], rest :: later) else (rest, later)

def parse (t : Text) : List Text := (readFrom .between t).2

end Parameters
end SpriteConfig
