import ModalBounds.Interval.Function
import ModalBounds.Interval.Plain
import ModalBounds.Proofs.Scalar.Collapse

/-!
# The modal intervals that there are

Bounds become a modal interval where they are collapsed, and they are exchanged by `dual`; no
operation makes an interval in another way, apart from the undefined one. So the bounds of an
interval over doubles stay as they are when they are collapsed (`Built.collapse_eq`), and the
interval is what its bounds make (`Built.of_bounds`).
-/

namespace ModalBounds.ModalInterval

/-- An interval made from two bounds, without a value, or from another one by exchanging its
bounds. -/
inductive Built {α : Type} [Scalar α] : ModalInterval α → Prop
  | of (lower upper : α) : Built (of lower upper)
  | undefined : Built undefined
  | dual {x : ModalInterval α} : Built x → Built x.dual

section
variable {α : Type} [Scalar α]

theorem Built.proper {x : ModalInterval α} (h : Built x) : Built x.proper := by
  unfold ModalInterval.proper
  split
  · exact h.dual
  · exact h

theorem built_onProper (f : α → α → α × α) (x : ModalInterval α) : Built (x.onProper f) := by
  unfold onProper
  dsimp only
  split
  · exact .dual (.of ..)
  · exact .of ..

theorem built_mul (x y : ModalInterval α) : Built (x.mul y) := by
  unfold mul
  split
  · exact .of ..
  · exact .undefined

theorem built_recip (x : ModalInterval α) : Built x.recip := by
  unfold recip
  dsimp only
  split
  · exact .undefined
  · exact .of ..

theorem built_npow (x : ModalInterval α) (n : ℕ) : Built (x.npow n) := by
  unfold npow
  split_ifs
  · exact .of ..
  · exact .of ..
  · exact built_onProper ..

theorem built_zpow (x : ModalInterval α) (n : ℤ) : Built (x.zpow n) := by
  unfold zpow
  split
  · exact built_recip _
  · exact built_npow x _

theorem built_of_pow? {x z : ModalInterval α} {exponent : α} (h : x.pow? exponent = some z) :
    Built z := by
  obtain ⟨n, -, rfl⟩ := Option.map_eq_some_iff.1 h
  exact built_zpow x n

end

section
variable {α : Type} [Elementary α]

theorem built_log (x : ModalInterval α) : Built x.log := by
  unfold log
  split
  · exact .undefined
  · exact .of ..

end

theorem Built.collapse_eq {x : ModalInterval Float} (h : x.Built) :
    collapse x.lower x.upper = (x.lower, x.upper) := by
  induction h with
  | of lower upper => exact Double.collapse_collapse lower upper
  | undefined => rfl
  | dual _ ih => exact Double.collapse_swap ih

/-- Made again from its bounds an interval stays as it is. -/
theorem Built.of_bounds {x : ModalInterval Float} (h : x.Built) :
    ModalInterval.of x.lower x.upper = x := by
  unfold ModalInterval.of
  rw [h.collapse_eq]

theorem neg_point {v : Float} (hv : v.isNaN = false) : -point v = point (-v) := by
  by_cases hstraddles : straddlesZero v v = true
  · rcases Double.eq_zero_of_straddlesZero hstraddles with rfl | rfl <;> rfl
  · have hpoint : point v = ⟨v, v⟩ := by
      unfold point ModalInterval.of
      rw [Double.collapse_self hv fun h => absurd h hstraddles]
    rw [hpoint]
    rfl

end ModalBounds.ModalInterval
