namespace Chronicle

/-- A point of the timeline. -/
abbrev Time := Int

namespace Time

/-- Times are written in 64 bits, and lie between the first and the last. -/
def first : Time := -9223372036854775808

def last : Time := 9223372036854775807

/-- No time follows the last. -/
def next? (t : Time) : Option Time := if t < last then some (t + 1) else none

end Time

end Chronicle
