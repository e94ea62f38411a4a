/-
# Sets of code points

A property of characters is a list of ranges of code points, ascending and apart, with both ends
included. A search may stop at the first range that begins beyond the code point it looks for. A
`Run` is a range that takes only every `step`th code point, for scripts in which capital and small
letters alternate.

Key definitions: `Unicode.inRanges`, `Unicode.Run`, `Unicode.inRuns`, `Unicode.shifted`.
-/

namespace SelectLang
namespace Unicode

/-- One of the ranges holds the code point. -/
def inRanges : List (Nat × Nat) → Nat → Bool
  | [], _ => false
  | (first, last) :: ranges, code =>
    if code < first then false
    else if code ≤ last then true
    else inRanges ranges code

/-- The code points `first`, `first + step`, … up to `last`. -/
structure Run where
  first : Nat
  last : Nat
  step : Nat

/-- The code point is a member of the run. -/
def Run.contains (run : Run) (code : Nat) : Bool :=
  run.first ≤ code && code ≤ run.last && (code - run.first) % run.step == 0

/-- One of the runs holds the code point. -/
def inRuns : List Run → Nat → Bool
  | [], _ => false
  | run :: runs, code =>
    if code < run.first then false
    else run.contains code || inRuns runs code

/-- The code point moved by the amount of the run that holds it, if one does. -/
def shifted : List (Run × Int) → Nat → Nat
  | [], code => code
  | (run, amount) :: shifts, code =>
    if code < run.first then code
    else if run.contains code then ((code : Int) + amount).toNat
    else shifted shifts code

end Unicode
end SelectLang
