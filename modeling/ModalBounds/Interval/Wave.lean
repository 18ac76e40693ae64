import ModalBounds.Scalar

/-!
# Ranges of periodic functions

`Wave.range` bounds a function of known period that is monotone between consecutive quarter
periods, such as the sine: measured in quarters, its extrema over an interval are taken at the two
ends or at a whole number in between, so it is enough to sample there. `tangentRange` bounds the
tangent, which is monotone between its poles.
-/

namespace ModalBounds

variable {α : Type} [Elementary α]

/-- A function between `-1` and `1` that repeats after `period` and is monotone in each quarter. -/
structure Wave (α : Type) where
  period : α
  /-- A quarter of the period. -/
  quarter : α
  /-- The value after so many quarters. -/
  sample : α → α

namespace Wave

/-- The length of a period in quarters. -/
def cycle : α := ((4 : Nat) : α)

/-- Measures an interval in quarters and moves it to start in `[0, 4)`. An interval that starts
below zero is first moved up by enough whole periods; where the end is reduced by one period more
than the start, it is put back above it. -/
def reduce (w : Wave α) (lower upper : α) : α × α :=
  let start := lower / w.quarter
  let stop := upper / w.quarter
  let (start, stop) :=
    if start < 0 then
      let periods := Elementary.trunc (Scalar.magnitude start / cycle) + 1
      (start + periods * cycle, stop + periods * cycle)
    else (start, stop)
  let start := Elementary.rem start cycle
  let stop := Elementary.rem stop cycle
  (start, if stop < start then stop + cycle else stop)

/-- The numbers `step`, `step + 1`, … up to `last`, at most `limit` of them. -/
def wholeSteps : (limit : Nat) → (step last : α) → List α
  | 0, _, _ => []
  | limit + 1, step, last =>
    if step ≤ last then step :: wholeSteps limit (step + 1) last else []

/-- More whole numbers than these do not lie between a start in `[0, 4)` and an end less than a
period later. -/
def stepLimit : Nat := 9

/-- The points, in quarters, at which a reduced interval can have its extrema. -/
def samplePoints (start stop : α) : List α :=
  start :: stop :: wholeSteps stepLimit (Elementary.ceil start) (Elementary.floor stop)

/-- The least and the greatest value over `[lower, upper]`. -/
def range (w : Wave α) (lower upper : α) : α × α :=
  if Scalar.isNaN lower || Scalar.isNaN upper then (Scalar.nan, Scalar.nan)
  else if !Scalar.isFinite lower || !Scalar.isFinite upper || decide (w.period ≤ upper - lower) then
    (-1, 1)
  else
    let (start, stop) := w.reduce lower upper
    let values := (samplePoints start stop).map w.sample
    (values.foldl min Scalar.infinity, values.foldl max (-Scalar.infinity))

def sine : Wave α where
  period := ((2 : Nat) : α) * Elementary.pi
  quarter := Elementary.halfPi
  sample t := Elementary.sin (t * Elementary.halfPi)

end Wave

/-- The range of the tangent over `[lower, upper]`: unbounded as soon as it reaches a pole. -/
def tangentRange (lower upper : α) : α × α :=
  if Scalar.isNaN lower || Scalar.isNaN upper then (Scalar.nan, Scalar.nan)
  else if !Scalar.isFinite lower || !Scalar.isFinite upper then
    (-Scalar.infinity, Scalar.infinity)
  else
    let halfPi : α := Elementary.halfPi
    let shift := Elementary.floor ((lower + halfPi) / Elementary.pi) * Elementary.pi
    if lower - shift ≤ -halfPi || halfPi ≤ upper - shift then (-Scalar.infinity, Scalar.infinity)
    else (Elementary.tan lower, Elementary.tan upper)

end ModalBounds
