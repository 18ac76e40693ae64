import Mathlib
import ModalBounds.Proofs.Evaluation.Range
import ModalBounds.Proofs.Tightening.Watched

/-!
# Directions of polynomial models

`Direction.Along F X v` says that `F` goes in one direction along the coordinate `v` everywhere in a
box. A slope whose range has one sign over proper ranges shows it (`along_of_slope`), and it lets us
compare two points of the box one coordinate at a time (`le_of_along`). With the bounds of variables
exchanged that a term goes against, its range still encloses the values at points of their owners
(`value_owner_mem_range_exchange`).
-/

namespace ModalBounds

open Set ModalInterval

namespace Direction

def opposite : Direction → Direction
  | up => down
  | down => up

/-- The function goes in the direction on a set. -/
def On (d : Direction) (f : ℝ → ℝ) (s : Set ℝ) : Prop :=
  match d with
  | up => MonotoneOn f s
  | down => AntitoneOn f s

/-- The function goes in the direction along a coordinate, wherever the others are in the box. -/
def Along (d : Direction) (F : (String → ℝ) → ℝ) (X : String → ModalInterval ℝ)
    (v : String) : Prop :=
  ∀ ρ ∈ box X, d.On (fun t => F (Function.update ρ v t)) (Icc (X v).lower (X v).upper)

/-- The end of a range from which a function rises. -/
def bottom (d : Direction) (x : ModalInterval ℝ) : ℝ :=
  match d with
  | up => x.lower
  | down => x.upper

def top (d : Direction) (x : ModalInterval ℝ) : ℝ := d.opposite.bottom x

/-- The first argument comes before the second, the way the function rises. -/
def Le (d : Direction) (s t : ℝ) : Prop :=
  match d with
  | up => s ≤ t
  | down => t ≤ s

def HasSign (d : Direction) (slope : ℝ) : Prop :=
  match d with
  | up => 0 ≤ slope
  | down => slope ≤ 0

end Direction

section
variable {F : (String → ℝ) → ℝ} {X : String → ModalInterval ℝ} {c ρ : String → ℝ}

theorem update_mem_box (h : ρ ∈ box X) {v : String} {t : ℝ} (ht : t ∈ Icc (X v).lower (X v).upper) :
    Function.update ρ v t ∈ box X := by
  refine mem_box.2 fun w => ?_
  rcases eq_or_ne w v with rfl | hne
  · rwa [Function.update_self]
  · rw [Function.update_of_ne hne]
    exact mem_box.1 h w

/-- Moving coordinates one after the other, each the way the function rises, the function rises. -/
theorem le_of_along (L : List String) (hc : c ∈ box X) (hρ : ρ ∈ box X)
    (hL : ∀ v ∈ L, c v = ρ v ∨ ∃ d : Direction, d.Along F X v ∧ d.Le (c v) (ρ v))
    (hoff : ∀ v ∉ L, c v = ρ v) : F c ≤ F ρ := by
  induction L generalizing c with
  | nil => rw [funext fun v => hoff v (by simp)]
  | cons v L ih =>
    -- one coordinate is moved within its interval; the others are moved from there
    have hstep : F c ≤ F (Function.update c v (ρ v)) := by
      have hcv := mem_box.1 hc v
      have hρv := mem_box.1 hρ v
      conv_lhs => rw [← Function.update_eq_self v c]
      rcases hL v (by simp) with heq | ⟨d, hd, hle⟩
      · rw [heq]
      · cases d with
        | up => exact hd c hc hcv hρv hle
        | down => exact hd c hc hρv hcv hle
    refine hstep.trans (ih (update_mem_box hc (mem_box.1 hρ v)) (fun w hw => ?_) fun w hw => ?_)
    · rcases eq_or_ne w v with rfl | hne
      · exact .inl (Function.update_self ..)
      · rw [Function.update_of_ne hne]
        exact hL w (List.mem_cons_of_mem _ hw)
    · rcases eq_or_ne w v with rfl | hne
      · rw [Function.update_self]
      · rw [Function.update_of_ne hne]
        exact hoff w fun h => (List.mem_cons.1 h).elim hne hw

/-- A slope of one sign shows the direction. -/
theorem along_of_hasSign {d : Direction} {v : String} {slope : (String → ℝ) → ℝ}
    (hderiv : ∀ ρ, HasDerivAt (fun t => F (Function.update ρ v t)) (slope ρ) (ρ v))
    (hsign : ∀ ρ ∈ box X, d.HasSign (slope ρ)) : d.Along F X v := by
  intro ρ hρ
  have hd (t : ℝ) : HasDerivAt (fun t => F (Function.update ρ v t))
      (slope (Function.update ρ v t)) t := by
    have h := hderiv (Function.update ρ v t)
    simpa only [Function.update_idem, Function.update_self] using h
  have hs {t : ℝ} (ht : t ∈ interior (Icc (X v).lower (X v).upper)) :
      d.HasSign (deriv (fun t => F (Function.update ρ v t)) t) := by
    rw [(hd t).deriv]
    exact hsign _ (update_mem_box hρ (interior_subset ht))
  have hcont : ContinuousOn (fun t => F (Function.update ρ v t)) (Icc (X v).lower (X v).upper) :=
    fun t _ => (hd t).continuousAt.continuousWithinAt
  have hdiff : DifferentiableOn ℝ (fun t => F (Function.update ρ v t))
      (interior (Icc (X v).lower (X v).upper)) :=
    fun t _ => (hd t).differentiableAt.differentiableWithinAt
  cases d with
  | up => exact monotoneOn_of_deriv_nonneg (convex_Icc _ _) hcont hdiff fun t ht => hs ht
  | down => exact antitoneOn_of_deriv_nonpos (convex_Icc _ _) hcont hdiff fun t ht => hs ht

/-! ### Ends of ranges -/

theorem Direction.bottom_le {x : ModalInterval ℝ} {t : ℝ} (d : Direction)
    (ht : t ∈ Icc x.lower x.upper) : d.Le (d.bottom x) t := by
  cases d
  · exact ht.1
  · exact ht.2

theorem Direction.le_top {x : ModalInterval ℝ} {t : ℝ} (d : Direction)
    (ht : t ∈ Icc x.lower x.upper) : d.Le t (d.top x) := by
  cases d
  · exact ht.2
  · exact ht.1

variable {N : Set String} {L : List String} {dir : String → Direction}
variable (hL : ∀ v ∈ N, v ∈ L) (hdir : ∀ v ∈ N, (dir v).Along F X v) (hc : c ∈ box X)
  (hρ : ρ ∈ box X)
variable (hoff : ∀ v ∉ N, c v = ρ v)

include hL hdir hc hρ hoff

theorem apply_bottom_le (hN : ∀ v ∈ N, c v = (dir v).bottom (X v)) : F c ≤ F ρ := by
  refine le_of_along L hc hρ (fun v _ => ?_) fun v hv => hoff v fun hvN => hv (hL v hvN)
  by_cases hv : v ∈ N
  · exact .inr ⟨dir v, hdir v hv, hN v hv ▸ (dir v).bottom_le (mem_box.1 hρ v)⟩
  · exact .inl (hoff v hv)

theorem le_apply_top (hN : ∀ v ∈ N, c v = (dir v).top (X v)) : F ρ ≤ F c := by
  refine le_of_along L hρ hc (fun v _ => ?_) fun v hv => (hoff v fun hvN => hv (hL v hvN)).symm
  by_cases hv : v ∈ N
  · exact .inr ⟨dir v, hdir v hv, hN v hv ▸ (dir v).le_top (mem_box.1 hρ v)⟩
  · exact .inl (hoff v hv).symm

end

namespace Direction

@[simp] theorem opposite_opposite (d : Direction) : d.opposite.opposite = d := by cases d <;> rfl

@[simp] theorem bottom_opposite (d : Direction) (x : ModalInterval ℝ) :
    d.opposite.bottom x = d.top x := rfl

@[simp] theorem top_opposite (d : Direction) (x : ModalInterval ℝ) :
    d.opposite.top x = d.bottom x := by
  rw [top, opposite_opposite]

theorem eq_opposite_of_ne {d d' : Direction} (h : d' ≠ d) : d' = d.opposite := by
  cases d <;> cases d' <;> first | rfl | exact absurd rfl h

theorem bottom_mem {x : ModalInterval ℝ} (d : Direction) (h : x.lower ≤ x.upper) :
    d.bottom x ∈ Icc x.lower x.upper := by
  cases d
  · exact left_mem_Icc.2 h
  · exact right_mem_Icc.2 h

theorem top_mem {x : ModalInterval ℝ} (d : Direction) (h : x.lower ≤ x.upper) :
    d.top x ∈ Icc x.lower x.upper := d.opposite.bottom_mem h

end Direction

/-! ### Terms over exchanged bounds -/

namespace Term

variable {t : Term} {X : String → ModalInterval ℝ} {N : Set String} {dir : String → Direction}
variable {c : String → ℝ} (hX : ∀ v, (X v).lower ≤ (X v).upper) (hn : t.names.Nodup)

include hX hn

/-- If the value goes against `dir` along the variables with exchanged bounds, it lies above the
lower bound of the range where these variables are at their bottom. -/
theorem lower_exchange_le (hN : ∀ v ∈ N, v ∈ t.names)
    (hdir : ∀ v ∈ N, (dir v).opposite.Along t.value X v)
    (hc : c ∈ box X) (hcN : ∀ v ∈ N, c v = (dir v).bottom (X v)) :
    (t.range (exchange N X)).lower ≤ t.value c := by
  obtain ⟨⟨ρ, hρ, hoff, hle⟩, -⟩ := t.exists_beyond_exchange (N := N) hX hn hc
  exact hle.trans (le_apply_top hN hdir hc hρ (fun v hv => (hoff v hv).symm) (by simpa using hcN))

theorem le_upper_exchange (hN : ∀ v ∈ N, v ∈ t.names)
    (hdir : ∀ v ∈ N, (dir v).opposite.Along t.value X v)
    (hc : c ∈ box X) (hcN : ∀ v ∈ N, c v = (dir v).top (X v)) :
    t.value c ≤ (t.range (exchange N X)).upper := by
  obtain ⟨-, ρ, hρ, hoff, hle⟩ := t.exists_beyond_exchange (N := N) hX hn hc
  exact (apply_bottom_le hN hdir hc hρ (fun v hv => (hoff v hv).symm) (by simpa using hcN)).trans
    hle

/-- If the value goes along some variables, and those of them that go against `d` have their bounds
exchanged, both bounds of the range are within values where all of them are at their ends. -/
theorem exists_between_exchange_ends {M : Set String} {d : String → Direction}
    (hM : ∀ v ∈ M, v ∈ t.names)
    (hdir : ∀ v ∈ M, (dir v).Along t.value X v) :
    (∃ ρ ∈ box X, (∀ v ∈ M, ρ v = (d v).bottom (X v)) ∧
        t.value ρ ≤ (t.range (exchange {v | v ∈ M ∧ dir v ≠ d v} X)).lower) ∧
      ∃ ρ ∈ box X, (∀ v ∈ M, ρ v = (d v).top (X v)) ∧
        (t.range (exchange {v | v ∈ M ∧ dir v ≠ d v} X)).upper ≤ t.value ρ := by
  classical
  have hbottom : (fun v => (d v).bottom (X v)) ∈ box X := mem_box.2 fun v => (d v).bottom_mem (hX v)
  have htop : (fun v => (d v).top (X v)) ∈ box X := mem_box.2 fun v => (d v).top_mem (hX v)
  have hwith : ∀ v ∈ {v | v ∈ M ∧ dir v = d v}, (d v).Along t.value X v :=
    fun v hv => hv.2 ▸ hdir v hv.1
  have hmoved {c ρ : String → ℝ} (hc : c ∈ box X) (hρ : ρ ∈ box X) : M.piecewise c ρ ∈ box X :=
    piecewise_mem_pi M hc hρ
  have hends {c ρ : String → ℝ} (v : String) (hv : v ∈ M) : M.piecewise c ρ v = c v :=
    piecewise_eq_of_mem _ _ _ hv
  -- the variables with exchanged bounds are at their ends already, so only the others of `M` move
  have hoff {c ρ : String → ℝ} (hon : ∀ v ∈ {v | v ∈ M ∧ dir v ≠ d v}, ρ v = c v) :
      ∀ v ∉ {v | v ∈ M ∧ dir v = d v}, M.piecewise c ρ v = ρ v := by
    intro v hv
    by_cases hvM : v ∈ M
    · rw [hends v hvM, hon v ⟨hvM, fun h => hv ⟨hvM, h⟩⟩]
    · exact piecewise_eq_of_notMem _ _ _ hvM
  constructor
  · obtain ⟨⟨ρ, hρ, hon, hle⟩, -⟩ :=
      t.exists_between_exchange (N := {v | v ∈ M ∧ dir v ≠ d v}) hX hn hbottom
    refine ⟨_, hmoved hbottom hρ, hends, le_trans ?_ hle⟩
    exact apply_bottom_le (fun v hv => hM v hv.1) hwith (hmoved hbottom hρ) hρ
      (hoff hon) fun v hv => hends v hv.1
  · obtain ⟨-, ρ, hρ, hon, hge⟩ :=
      t.exists_between_exchange (N := {v | v ∈ M ∧ dir v ≠ d v}) hX hn htop
    refine ⟨_, hmoved htop hρ, hends, hge.trans ?_⟩
    exact le_apply_top (fun v hv => hM v hv.1) hwith (hmoved htop hρ) hρ (hoff hon) fun v hv =>
      hends v hv.1

/-- If the value goes along every variable, and those that go against `d` have their bounds
exchanged, the bounds of the range are the values at the two ends. -/
theorem range_exchange_eq (d : Direction) (hdir : ∀ v ∈ t.names, (dir v).Along t.value X v) :
    (t.range (exchange {v | v ∈ t.names ∧ dir v ≠ d} X)).lower = t.value (fun v => d.bottom (X v)) ∧
      (t.range (exchange {v | v ∈ t.names ∧ dir v ≠ d} X)).upper = t.value fun v =>
      d.top (X v) := by
  have hbottom : (fun v => d.bottom (X v)) ∈ box X := mem_box.2 fun v => d.bottom_mem (hX v)
  have htop : (fun v => d.top (X v)) ∈ box X := mem_box.2 fun v => d.top_mem (hX v)
  have hagainst : ∀ v ∈ {v | v ∈ t.names ∧ dir v ≠ d}, d.opposite.Along t.value X v :=
    fun v hv => Direction.eq_opposite_of_ne hv.2 ▸ hdir v hv.1
  obtain ⟨⟨ρ, -, hρ, hle⟩, σ, -, hσ, hge⟩ := exists_between_exchange_ends (M := {v | v ∈ t.names})
    (d := fun _ => d) hX hn (fun _ hv => hv) hdir
  rw [t.value_congr hρ] at hle
  rw [t.value_congr hσ] at hge
  exact ⟨le_antisymm
    (lower_exchange_le hX hn (fun v hv => hv.1) hagainst hbottom fun _ _ => rfl) hle,
    le_antisymm hge (le_upper_exchange hX hn (fun v hv => hv.1) hagainst htop fun _ _ => rfl)⟩

omit hX hn in
/-- Along the variables in `N` the term goes against `dir`, and with owners in the places of the
variables it goes along `dir` in the owners of these. -/
def AgainstOwners (t : Term) (owner : String → String) (X : String → ModalInterval ℝ)
    (N : Set String) (dir : String → Direction) : Prop :=
  ∀ o ∈ t.names, o ∈ N →
    (dir (owner o)).Along (fun τ => t.value fun o => τ (owner o)) X (owner o) ∧
      (dir (owner o)).opposite.Along t.value X o

variable {owner : String → String} (howner : ∀ o, X (owner o) = X o) {τ : String → ℝ}
  (hτ : τ ∈ box X)

include howner hτ

/-- With the bounds of these exchanged the range encloses the values at points of the owners: moving
the owners to the end where the value is least moves the variables to the end where the term is
greatest along them, and there the lower bound of the range is below the value. -/
theorem value_owner_mem_range_exchange (h : t.AgainstOwners owner X N dir) :
    t.value (fun o => τ (owner o)) ∈
      Icc (t.range (exchange N X)).lower (t.range (exchange N X)).upper := by
  classical
  let M : Set String := {o | o ∈ t.names ∧ o ∈ N}
  have hrange : t.range (exchange N X) = t.range (exchange M X) :=
    t.range_congr fun o ho => by simp only [exchange, M, mem_ofPred_eq, ho, true_and]
  have hM : ∀ o ∈ M, (dir (owner o)).opposite.Along t.value X o := fun o ho => (h o ho.1 ho.2).2
  let F : (String → ℝ) → ℝ := fun τ => t.value fun o => τ (owner o)
  have hW : ∀ v ∈ owner '' M, (dir v).Along F X v := by
    rintro _ ⟨o, ho, rfl⟩
    exact (h o ho.1 ho.2).1
  have hnames : ∀ v ∈ owner '' M, v ∈ t.names.map owner := by
    rintro _ ⟨o, ho, rfl⟩
    exact List.mem_map_of_mem ho.1
  -- the point with the owners of exchanged variables moved to one end
  let moved (e : Direction → ModalInterval ℝ → ℝ) : String → ℝ :=
    (owner '' M).piecewise (fun v => e (dir v) (X v)) τ
  have hon (e : Direction → ModalInterval ℝ → ℝ) (v : String) (hv : v ∈ owner '' M) :
      moved e v = e (dir v) (X v) := piecewise_eq_of_mem _ _ _ hv
  have hoff (e : Direction → ModalInterval ℝ → ℝ) (v : String) (hv : v ∉ owner '' M) : moved e v =
      τ v :=
    piecewise_eq_of_notMem _ _ _ hv
  have hat (e : Direction → ModalInterval ℝ → ℝ) (o : String) (ho : o ∈ M) :
      moved e (owner o) = e (dir (owner o)) (X o) := by
    rw [hon e _ (mem_image_of_mem _ ho), howner]
  have hbottom : moved Direction.bottom ∈ box X :=
    piecewise_mem_pi _ (fun v _ => (dir v).bottom_mem (hX v)) hτ
  have htop : moved Direction.top ∈ box X :=
    piecewise_mem_pi _ (fun v _ => (dir v).top_mem (hX v)) hτ
  have hseen {σ : String → ℝ} (hσ : σ ∈ box X) : (fun o => σ (owner o)) ∈ box X :=
    mem_box.2 fun o => howner o ▸ mem_box.1 hσ (owner o)
  rw [hrange]
  constructor
  · calc _ ≤ F (moved Direction.bottom) :=
          lower_exchange_le hX hn (fun o ho => ho.1) hM (hseen hbottom) (hat _)
      _ ≤ F τ := apply_bottom_le hnames hW hbottom hτ (hoff _) (hon _)
  · calc F τ ≤ F (moved Direction.top) := le_apply_top hnames hW htop hτ (hoff _) (hon _)
      _ ≤ _ := le_upper_exchange hX hn (fun o ho => ho.1) hM (hseen htop) (hat _)

/-- If it is the others that go against, the range with its bounds exchanged does. -/
theorem value_owner_mem_range_exchange_compl (h : t.AgainstOwners owner X Nᶜ dir) :
    t.value (fun o => τ (owner o)) ∈
      Icc (t.range (exchange N X)).upper (t.range (exchange N X)).lower := by
  have hdual : exchange N X = fun v => (exchange Nᶜ X v).dual := by
    funext v
    by_cases hv : v ∈ N <;> simp [exchange, hv, dual]
  rw [hdual, range_dual]
  exact value_owner_mem_range_exchange hX hn howner hτ h

end Term

/-! ### Slopes of polynomials -/

theorem hasSign_of_direction? {y : ModalInterval ℚ} {d : Direction} (h : direction? y = some d)
    (hy : y.toReal.lower ≤ y.toReal.upper) {t : ℝ} (ht : t ∈ Icc y.toReal.lower y.toReal.upper) :
    d.HasSign t := by
  have hle : y.lower ≤ y.upper := Rat.cast_le.1 hy
  simp only [direction?, isUndefined, Exact.isNaN_eq, proper_of_le hle, Bool.or_self,
    Bool.false_eq_true, if_false] at h
  split_ifs at h with hup hdown
  · cases h
    exact le_trans (by simpa [toReal] using hup) ht.1
  · cases h
    exact le_trans ht.2 (by simpa [toReal] using hdown)

namespace WorkingRanges

variable [RealFunctions ℚ] {state : WorkingRanges ℚ} {V : Set String} {e : Expr ℚ}

theorem exists_evaluate (he : e.IsPolynomial V) (henv : ∀ v ∈ V, (state.environment v).isSome) :
    ∃ y, state.evaluate e = .ok y ∧ y.toReal = e.term.range state.environment.real := by
  obtain ⟨p, hp⟩ := he.exists_compile
  obtain ⟨y, hy, hreal⟩ := he.interval_eq henv
  refine ⟨y, evaluate_eq.trans (bind_eq_ok.2 ⟨p, hp, ?_⟩), hreal⟩
  rw [Program.evaluate_eq hp fun v hv => henv v (he.mem_of_occurs hv), hy]

theorem exists_slope (he : e.IsPolynomial V) (henv : ∀ v ∈ V, (state.environment v).isSome)
    (v : String) :
    ∃ d y, e.derivative v = .ok d ∧ d.IsPolynomial V ∧ state.slope e v = .ok y ∧
      y.toReal = d.term.range state.environment.real := by
  obtain ⟨d, hd, hdp⟩ := he.exists_derivativeAt v 0
  obtain ⟨y, hy, hreal⟩ := exists_evaluate hdp henv
  exact ⟨d, y, hd, hdp, bind_eq_ok.2 ⟨d, hd, hy⟩, hreal⟩

/-- Over proper ranges the range of a slope shows the direction of the values. -/
theorem along_of_slope (he : e.IsPolynomial V) (henv : ∀ v ∈ V, (state.environment v).isSome)
    {X : String → ModalInterval ℝ} (hX : ∀ v, (X v).lower ≤ (X v).upper)
    (hV : ∀ v ∈ V, state.environment.real v = X v) {v : String} {y : ModalInterval ℚ}
    {dir : Direction}
    (hy : state.slope e v = .ok y) (hdir : direction? y = some dir) :
    dir.Along (fun ρ => e.value ρ) X v := by
  obtain ⟨d, y', hd, hdp, hy', hreal⟩ := exists_slope he henv v
  obtain rfl : y' = y := Except.ok.inj (hy'.symm.trans hy)
  rw [d.term.range_congr fun w hw => hV w (hdp.mem_of_occurs (hdp.names_term ▸ hw))] at hreal
  refine along_of_hasSign (fun ρ =>
    Expr.hasPartialAt_of_derivativeAt hd (he.regularAt ρ)) fun ρ hρ => ?_
  have hmem := d.term.value_mem_range hρ
  rw [← hreal, hdp.value_term] at hmem
  exact hasSign_of_direction? hdir (hreal ▸ d.term.range_proper hX) hmem

end WorkingRanges

end ModalBounds
