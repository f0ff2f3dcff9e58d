/-!
# Limits

Numbers that are read from outside are words of 32 or of 64 bits, and so are the counters of
subjects and of versions.
-/
namespace SpriteConfig

def maxWord32 : Nat := 0xFFFFFFFF

def maxWord64 : Nat := 0xFFFFFFFFFFFFFFFF

/-- The least number that has no place among the signed ones of 64 bits. -/
def signBit64 : Nat := 0x8000000000000000

end SpriteConfig
