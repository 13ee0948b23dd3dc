/-! Limits on nesting. -/
namespace Lisplet

/-- A list that would open this many brackets at once is not read. -/
def maxReadDepth : Nat := 256

/-- This many applications may not be in progress at once. Rounds of a loop do not count. -/
def maxCallDepth : Nat := 10000

end Lisplet
