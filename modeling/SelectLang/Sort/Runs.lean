/-
# Sorting by runs

A list is cut into runs. Where it ascends, or falls at every step, for long enough, that is a run as
it stands, or backwards. Elsewhere a run is a short stretch that is sorted at once, or a longer one
that is left for later. Neighbouring runs are merged, those first whose seam lies deepest in a
balanced tree over the list. Two stretches that wait to be sorted are only put together, if there is
room to sort them as one.

Key definitions: `Run`, `runs?`, `joinRuns?`, `joinAll?`, `sortByRuns?`.
-/
import SelectLang.Sort.Halves

namespace SelectLang

variable {α : Type} (order : α → α → Ordering)

/-- Neighbouring elements, in order already or still to be sorted. -/
structure Run (α : Type) where
  items : List α
  sorted : Bool

/-! ### Cutting -/

/-- How many elements go on from one to the next. -/
def runLength (goesOn : α → α → Bool) : List α → Nat
  | a :: b :: rest => if goesOn a b then runLength goesOn (b :: rest) + 1 else 1
  | as => as.length

/-- The second element comes before the first. -/
def falls : List α → Bool
  | a :: b :: _ => order b a == .lt
  | _ => false

/-- How many elements fall at every step, or else ascend. -/
def naturalLength (as : List α) : Nat :=
  runLength (fun a b => (order b a == .lt) == falls order as) as

/-- The first run of a list. A stretch of the list that is in order is one if it is good, that is,
as long as `good` says. -/
def nextRun? (eager : Bool) (good : Nat) (as : List α) : Option (Run α) :=
  let length := naturalLength order as
  if good ≤ length then
    some ⟨if falls order as then (as.take length).reverse else as.take length, true⟩
  else if eager then (sortHalves? order (as.take 32)).map (⟨·, true⟩)
  else some ⟨as.take good, false⟩

/-- The runs of a list. -/
def runs? (eager : Bool) (good : Nat) : List α → Option (List (Run α))
  | [] => some []
  | a :: rest =>
    match nextRun? order eager good (a :: rest) with
    | none => none
    | some run => (runs? eager good (rest.drop (run.items.length - 1))).map (run :: ·)
termination_by as => as.length
decreasing_by
  simp only [List.length_drop, List.length_cons]
  omega

/-- How long a stretch has to be to be a run as it stands, in a list of `n` elements: half of the
list, or 64, or about the root of `n` if that is more. -/
def goodLength (n : Nat) : Nat :=
  if n ≤ 4096 then min (n - n / 2) 64
  else
    let shift := (1 + n.log2) / 2
    (Nat.pow 2 shift + n / Nat.pow 2 shift) / 2

/-! ### Joining -/

section

variable (finish : List α → Option (List α)) (room : Nat)

/-- The elements of a run in order, which `finish` brings about where they are not. -/
def Run.settle? (run : Run α) : Option (List α) :=
  if run.sorted then some run.items else finish run.items

/-- Merges from the end at which the shorter list stands. -/
def mergeRuns (as bs : List α) : List α :=
  if as.length ≤ bs.length then mergeUp order as bs else mergeDown order as bs

/-- One run of two neighbouring ones. There is room for so many elements to be sorted at once. -/
def joinRuns? (left right : Run α) : Option (Run α) :=
  if left.items.length + right.items.length ≤ room ∧ left.sorted = false ∧ right.sorted = false then
    some ⟨left.items ++ right.items, false⟩
  else
    match left.settle? finish, right.settle? finish with
    | some as, some bs => some ⟨mergeRuns order as bs, true⟩
    | _, _ => none

/-- How deep the seam in front of place `mid` lies in the tree over a list of `n` elements, if the
runs at the seam reach from `left` to `right`. The middles of the runs, as parts of the list, agree
in so many binary places. -/
def seamDepth (n left mid right : Nat) : Nat :=
  let scale := (Nat.pow 2 62 + n - 1) / n
  63 - (((left + mid) * scale) ^^^ ((mid + right) * scale)).log2

/-- Joins a run with the runs before it whose seams lie as deep. The runs before it are given last
first, with the depths of the seams behind them. -/
def joinBack? (depth : Nat) : List (Run α × Nat) → Run α → Option (List (Run α × Nat) × Run α)
  | [], run => some ([], run)
  | (left, seam) :: stack, run =>
    if depth ≤ seam then
      match joinRuns? order finish room left run with
      | none => none
      | some run => joinBack? depth stack run
    else some ((left, seam) :: stack, run)

/-- Joins all runs of a list of `n` elements, of which `scanned` are in the runs before the last
ones. -/
def joinAll? (n : Nat) : List (Run α × Nat) → Run α → Nat → List (Run α) → Option (Run α)
  | stack, run, _, [] => (joinBack? order finish room 0 stack run).map Prod.snd
  | stack, run, scanned, next :: runs =>
    let seen := scanned + next.items.length
    let depth := seamDepth n (scanned - run.items.length) scanned seen
    match joinBack? order finish room depth stack run with
    | none => none
    | some (stack, run) => joinAll? n ((run, depth) :: stack) next seen runs

/-- Sorts a list by its runs. -/
def sortByRuns? (eager : Bool) (as : List α) : Option (List α) :=
  match runs? order eager (goodLength as.length) as with
  | none => none
  | some [] => some []
  | some (run :: runs) =>
    match joinAll? order finish room as.length [] run run.items.length runs with
    | none => none
    | some whole => whole.settle? finish

end

end SelectLang
