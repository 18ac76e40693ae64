import Mathlib
import ModalBounds.Proofs.Evaluation.Recorded
import ModalBounds.Proofs.Interval.Dual

/-!
# Evaluation over dual ranges

A model over the duals of some ranges evaluates to the dual of its interval over the ranges, or it
fails over both (`Program.evaluate_dual`), provided that the intervals which the run over the ranges
records are finite. The run may end with a failure, so what it records is followed operand by
operand: nothing that is recorded is lost (`keeps_record`), and the interval of a node that has one
is there.
-/

namespace ModalBounds

open ModalInterval (dual dual_lower dual_upper isDegenerate exponent? pow?)

def Environment.dual {α : Type} (env : Environment α) :
    Environment α := fun v => (env v).map ModalInterval.dual

/-! ### What stays recorded -/

namespace Expr

section
variable {α β γ : Type}

/-- A computation keeps what was recorded before. -/
def Keeps (r : Recording α β) : Prop :=
  ∀ (before : NodeIntervals α) (n : ℕ) (x : ModalInterval α),
    before[n]? = some x → (r.run.run before).2[n]? = some x

theorem run_bind_snd (r : Recording α β) (f : β → Recording α γ) (before : NodeIntervals α) :
    ((r >>= f).run.run before).2 =
      match (r.run.run before).1 with
      | .ok b => ((f b).run.run (r.run.run before).2).2
      | .error _ => (r.run.run before).2 := by
  rw [ExceptT.run_bind, StateT.run_bind]
  rcases r.run.run before with ⟨e | b, middle⟩ <;> rfl

theorem Keeps.bind {r : Recording α β} {f : β → Recording α γ} (h : Keeps r)
    (hf : ∀ b, Keeps (f b)) : Keeps (r >>= f) := by
  intro before n x hx
  rw [run_bind_snd]
  split
  · exact hf _ _ n x (h before n x hx)
  · exact h before n x hx

theorem keeps_pure (b : β) : Keeps (α := α) (pure b) := fun _ _ _ hx => hx

theorem keeps_ofExcept (y : Except (ModelError α) β) : Keeps (MonadExcept.ofExcept y) := by
  cases y <;> exact fun _ _ _ hx => hx

theorem keeps_insertIfNew (n : ℕ) (y : ModalInterval α) :
    Keeps (modify (·.insertIfNew n y) : Recording α PUnit) := by
  intro before m x hx
  show (before.insertIfNew n y)[m]? = some x
  rw [Std.ExtTreeMap.getElem?_insertIfNew, if_neg, hx]
  rintro ⟨hnm, hnot⟩
  obtain rfl := Std.LawfulEqCmp.eq_of_compare hnm
  exact hnot (Std.ExtTreeMap.mem_iff_isSome_getElem?.2 (by rw [hx]; rfl))

end

section
variable {α : Type} [Elementary α]

theorem keeps_recordAll (env : Environment α) {args : List (Expr α)}
    (h : ∀ a ∈ args, ∀ first, Keeps (a.record env first)) (first : ℕ) :
    Keeps (recordAll env first args) := by
  induction args generalizing first with
  | nil => exact keeps_pure _
  | cons a args ih =>
    rw [List.forall_mem_cons] at h
    exact (h.1 first).bind fun x => (ih h.2 _).bind fun xs => keeps_pure _

theorem keeps_record (env : Environment α) (e : Expr α) : ∀ first, Keeps (e.record env first) := by
  induction e with
  | node s args ih =>
    intro first
    exact (keeps_recordAll env ih (first + 1)).bind fun xs => (keeps_ofExcept _).bind fun x =>
      (keeps_insertIfNew first x).bind fun _ => keeps_pure x

theorem getElem?_record {env : Environment α} {e : Expr α} {first : ℕ} {before : NodeIntervals α}
    {x : ModalInterval α} (hfresh : Recorded.Fresh first before) (hx : e.interval env = .ok x) :
    ((e.record env first).run.run before).2[first]? = some x := by
  have hrun : (e.record env first).run.run before =
      (.ok x, ((e.record env first).run.run before).2) :=
    Prod.ext ((run_record_fst env e first before).trans hx) rfl
  obtain ⟨s, args⟩ := e
  rw [recorded_of_record _ hfresh hrun first, if_neg (lt_irrefl first), Nat.sub_self, preorder_node,
    List.getElem?_cons_zero, Option.bind_some, hx]
  rfl

end

end Expr

/-! ### Dual operands of a node -/

section
variable {α : Type} [Elementary α] [LawfulExact α] {env : Environment α}

open LawfulExact

omit [Elementary α] [LawfulExact α] in
theorem foldl_dual {op : ModalInterval α → ModalInterval α → ModalInterval α}
    (hop : ∀ x y, (op x y).dual = op x.dual y.dual) (xs : List (ModalInterval α))
    (x : ModalInterval α) : (xs.map dual).foldl op x.dual = (xs.foldl op x).dual := by
  induction xs generalizing x with
  | nil => rfl
  | cons y xs ih => rw [List.map_cons, List.foldl_cons, List.foldl_cons, ← hop, ih]

/-- An exponent is a single point, which is its own dual, or it fails both ways. -/
theorem toOption_powerOf_dual {x : ModalInterval α} (hx : x.isFinite = true) (y : ModalInterval α) :
    (Machine.powerOf x.dual y.dual).toOption = (Machine.powerOf x y).toOption.map dual := by
  have hdual : y.dual.isDegenerate = true ↔ y.isDegenerate = true := by
    rw [isDegenerate, isDegenerate, dual_lower, dual_upper]
    constructor
    · intro h
      have heq : y.upper = y.lower := LawfulExact.eq_of_beq h
      rw [heq] at h ⊢
      exact h
    · intro h
      have heq : y.lower = y.upper := LawfulExact.eq_of_beq h
      rw [heq] at h ⊢
      exact h
  rw [Machine.powerOf, Machine.powerOf]
  by_cases hy : y.isDegenerate = true
  · have hpoint : y.dual = y := by
      obtain ⟨l, u⟩ := y
      obtain rfl : l = u := LawfulExact.eq_of_beq hy
      rfl
    rw [if_pos (hdual.2 hy), if_pos hy, hpoint, pow?, pow?]
    rcases exponent? y.lower with _ | n
    · rfl
    · exact congrArg some (dual_zpow hx n).symm
  · rw [if_neg (fun h => hy (hdual.1 h)), if_neg hy]
    rfl

theorem Symbol.toOption_interval_dual {s : Symbol α} {xs : List (ModalInterval α)}
    (hxs : ∀ x ∈ xs, x.isFinite = true)
    (hres : ∀ x, s.interval env xs = .ok x → x.isFinite = true) :
    (s.interval env.dual (xs.map dual)).toOption = (s.interval env xs).toOption.map dual := by
  cases s with
  | var name weight =>
    simp only [Symbol.interval, Environment.dual]
    cases env name with
    | none => rfl
    | some x =>
      refine congrArg some ?_
      rw [dual_mul, ModalInterval.dual_point]
  | const c => exact congrArg some (ModalInterval.dual_point c).symm
  | add =>
    rcases xs with _ | ⟨x, xs⟩
    · rfl
    · exact congrArg some (foldl_dual dual_add xs x)
  | mul =>
    rcases xs with _ | ⟨x, xs⟩
    · rfl
    · exact congrArg some (foldl_dual dual_mul xs x)
  | sub =>
    rcases xs with _ | ⟨x, _ | ⟨y, xs⟩⟩
    · rfl
    · exact congrArg some (dual_neg x).symm
    · exact congrArg some (foldl_dual dual_sub (y :: xs) x)
  | div =>
    rcases xs with _ | ⟨x, _ | ⟨y, xs⟩⟩
    · rfl
    · exact congrArg some (dual_recip x).symm
    · exact congrArg some (foldl_dual dual_div (y :: xs) x)
  | power =>
    rcases xs with _ | ⟨x, _ | ⟨y, _ | ⟨z, xs⟩⟩⟩
    · rfl
    · rfl
    · exact toOption_powerOf_dual (hxs x (by simp)) y
    · rfl
  | analyticQuotient =>
    rcases xs with _ | ⟨x, _ | ⟨y, _ | ⟨z, xs⟩⟩⟩
    · rfl
    · rfl
    · exact congrArg some (dual_analyticQuotient x (hxs y (by simp))).symm
    · rfl
  | sin | cos | tan | tanh | log | exp | square | sqrt | abs | subFunction =>
    rcases xs with _ | ⟨x, _ | ⟨y, xs⟩⟩
    · rfl
    · have hx := hxs x (by simp)
      have hr := hres _ rfl
      refine congrArg some ?_
      first
      | exact (dual_sin hx hr).symm
      | exact (dual_cos hx hr).symm
      | exact (dual_tan hx hr).symm
      | exact (dual_tanh x).symm
      | exact (dual_log x).symm
      | exact (dual_exp x).symm
      | exact (dual_square hx).symm
      | exact (dual_sqrt x).symm
      | exact (dual_abs hx).symm
      | rfl
    · rfl
  | cube | cbrt | root | logistic | erf | min | max => rfl

/-! ### Dual ranges of a model -/

namespace Expr

omit [LawfulExact α] in
def AllFinite (recorded : NodeIntervals α) : Prop :=
  ∀ (n : ℕ) (x : ModalInterval α), recorded[n]? = some x → x.isFinite = true

omit [LawfulExact α] in
theorem AllFinite.of_bind {β γ : Type} {r : Recording α β} {f : β → Recording α γ}
    {before : NodeIntervals α}
    (h : AllFinite ((r >>= f).run.run before).2) (hf : ∀ b, Keeps (f b)) :
    AllFinite (r.run.run before).2 := by
  rw [run_bind_snd] at h
  split at h
  · exact fun n x hx => h n x (hf _ _ n x hx)
  · exact h

omit [LawfulExact α] in
theorem toOption_intervals_dual {args : List (Expr α)}
    (ih : ∀ a ∈ args, ∀ {first : ℕ} {before : NodeIntervals α}, Recorded.Fresh first before →
      AllFinite ((a.record env first).run.run before).2 →
        (a.interval env.dual).toOption = (a.interval env).toOption.map dual) :
    ∀ {first : ℕ} {before : NodeIntervals α}, Recorded.Fresh first before →
      AllFinite ((recordAll env first args).run.run before).2 →
        (intervals env.dual args).toOption = (intervals env args).toOption.map (·.map dual) ∧
          ∀ xs, intervals env args = .ok xs → ∀ x ∈ xs, x.isFinite = true := by
  induction args with
  | nil =>
    intro first before _ _
    exact ⟨rfl, fun xs hxs => by cases hxs; simp⟩
  | cons a args iha =>
    rw [List.forall_mem_cons] at ih
    intro first before hfresh hfinite
    -- later operands record more but take nothing away, so the first ones are finite on their own
    have hkeeps (x : ModalInterval α) : Keeps
        (recordAll env (first + a.size) args >>= fun xs => pure (x :: xs)) :=
      (keeps_recordAll env (fun b _ => keeps_record env b) _).bind fun xs => keeps_pure _
    have hmiddle : AllFinite ((a.record env first).run.run before).2 := hfinite.of_bind hkeeps
    have ha := ih.1 hfresh hmiddle
    have hrun := run_record_fst env a first before
    rw [intervals, intervals]
    cases hx : a.interval env with
    | error err =>
      rw [hx] at ha
      cases hd : a.interval env.dual with
      | error err' => exact ⟨rfl, by rintro _ ⟨⟩⟩
      | ok y => rw [hd] at ha; cases ha
    | ok x =>
      rw [hx] at ha hrun
      rw [toOption_eq_some.1 ha]
      -- the operands take consecutive numbers, and those of the rest are still free
      have hfresh' : Recorded.Fresh (first + a.size) ((a.record env first).run.run before).2 := by
        have hrecorded := recorded_of_record a hfresh (Prod.ext hrun rfl)
        exact length_preorder a ▸ hrecorded.fresh
      have hrest : AllFinite ((recordAll env (first + a.size) args).run.run
          ((a.record env first).run.run before).2).2 := by
        rw [recordAll, run_bind_snd, hrun] at hfinite
        exact AllFinite.of_bind hfinite fun xs => keeps_pure _
      obtain ⟨hdual, hall⟩ := iha ih.2 hfresh' hrest
      cases hxs : intervals env args with
      | error err =>
        rw [hxs] at hdual
        cases hd : intervals env.dual args with
        | error err' => exact ⟨rfl, by rintro _ ⟨⟩⟩
        | ok ys => rw [hd] at hdual; cases hdual
      | ok xs =>
        rw [hxs] at hdual
        rw [toOption_eq_some.1 hdual]
        refine ⟨rfl, fun ys hys => ?_⟩
        cases hys
        exact List.forall_mem_cons.2 ⟨hmiddle first x (getElem?_record hfresh hx), hall xs hxs⟩

theorem toOption_interval_dual (e : Expr α) : ∀ {first : ℕ} {before : NodeIntervals α},
    Recorded.Fresh first before → AllFinite ((e.record env first).run.run before).2 →
      (e.interval env.dual).toOption = (e.interval env).toOption.map dual := by
  induction e with
  | node s args ih =>
    intro first before hfresh hfinite
    have hall : AllFinite ((recordAll env (first + 1) args).run.run before).2 :=
      hfinite.of_bind fun xs => (keeps_ofExcept _).bind fun x =>
        (keeps_insertIfNew first x).bind fun _ => keeps_pure x
    obtain ⟨hdual, hxs⟩ := toOption_intervals_dual ih (fun n hn => hfresh n (by omega)) hall
    cases hargs : intervals env args with
    | error err =>
      rw [hargs] at hdual
      rw [interval, interval, hargs]
      cases hd : intervals env.dual args with
      | error err' => rfl
      | ok ys => rw [hd] at hdual; cases hdual
    | ok xs =>
      rw [hargs] at hdual
      rw [interval_node (toOption_eq_some.1 hdual), interval_node hargs]
      refine Symbol.toOption_interval_dual (hxs xs hargs) fun x hx => hfinite first x ?_
      exact getElem?_record hfresh ((interval_node hargs).trans hx)

end Expr

/-- Over the duals of its ranges a model evaluates to the dual of its interval, or it fails over
both, where the run over the ranges records finite intervals. -/
theorem Program.evaluate_dual {e : Expr α} {p : Program α} (hp : compile e = .ok p)
    (env : Environment α)
    (hfinite : ∀ (n : ℕ) (x : ModalInterval α),
      (p.run env ∅).2.recorded[n]? = some x → x.isFinite = true)
    (x : ModalInterval α) : p.evaluate env.dual = .ok x.dual ↔ p.evaluate env = .ok x := by
  have hknown (v : String) : (env.dual v).isSome = (env v).isSome := Option.isSome_map
  have hoption : (p.evaluate env.dual).toOption = (p.evaluate env).toOption.map dual := by
    by_cases henv : ∀ v ∈ e.variableOccurrences, (env v).isSome
    · obtain ⟨left, hrun⟩ := run_eq hp henv ∅
      rw [hrun] at hfinite
      rw [evaluate_eq hp henv, evaluate_eq hp fun v hv => (hknown v).trans (henv v hv)]
      exact e.toOption_interval_dual (fun n _ => Std.ExtTreeMap.getElem?_empty) hfinite
    -- a variable without a range has none over the duals, and the same one is named
    · have hmissing : ∃ name, p.missing? (fun v => (env v).isSome) = some name := by
        rw [← Option.ne_none_iff_exists']
        refine fun hnone => henv fun v hv => ?_
        obtain ⟨a, ha, hav⟩ := Expr.mem_variableOccurrences_iff.1 hv
        exact (missing?_eq_none hp _).1 hnone a ha v hav
      obtain ⟨name, hname⟩ := hmissing
      have hdual : p.missing? (fun v => (env.dual v).isSome) = some name := by
        simp only [hknown, hname]
      rw [evaluate, evaluate, run, run, hname, hdual]
      rfl
  rw [← toOption_eq_some, ← toOption_eq_some, hoption, Option.map_eq_some_iff]
  constructor
  · rintro ⟨y, hy, hxy⟩
    obtain rfl : y = x := congrArg dual hxy
    exact hy
  · exact fun hx => ⟨x, hx, rfl⟩

end

/-! ### A sine -/

/-- Real functions that do nothing, and a period of six. -/
@[reducible] def RealFunctions.identities : RealFunctions ℚ where
  exp x := x
  log x := x
  sqrt x := x
  sin x := x
  tan x := x
  tanh x := x
  pi := 3

section
attribute [local instance] RealFunctions.identities

/-- The model `sin(x / exp(y))`. -/
def sineOfQuotient : Expr (Extended (0 : ℚ)) :=
  .unary .sin (.binary .div (.ofVariable "x") (.unary .exp (.ofVariable "y")))

/-- The ranges `[1, 2]` for `x` and `[4, 2]`, which is improper, for `y`. -/
def oneProper : Environment (Extended (0 : ℚ)) := fun v =>
  if v = "x" then some ⟨.finite 1, .finite 2⟩ else if v = "y"
    then some ⟨.finite 4, .finite 2⟩ else none

/-- The sine over the ranges and over their duals. -/
theorem evaluate_sineOfQuotient : ∃ p x, Program.compile sineOfQuotient = .ok p ∧
    p.evaluate oneProper = .ok x ∧ p.evaluate oneProper.dual = .ok x.dual := by
  have : LawfulExact (Extended (0 : ℚ)) := Extended.lawfulExact (show (0 : ℚ) < 3 by norm_num)
  have hp : Program.compile sineOfQuotient = .ok _ := rfl
  have hx : ((Program.compile sineOfQuotient).toOption.bind fun p =>
      (p.evaluate oneProper).toOption).isSome := by
    decide +kernel
  have hfinite : ((Program.compile sineOfQuotient).toOption.map fun p =>
      (p.run oneProper ∅).2.recorded.toList.all fun q => q.2.isFinite) = some true := by
        decide +kernel
  rw [hp] at hx hfinite
  obtain ⟨x, hx⟩ := Option.isSome_iff_exists.1 hx
  refine ⟨_, x, hp, toOption_eq_some.1 hx,
    (Program.evaluate_dual hp oneProper (fun n y hy => ?_) x).2
    (toOption_eq_some.1 hx)⟩
  exact List.all_eq_true.1 (Option.some.inj hfinite) (n, y)
    (Std.ExtTreeMap.mem_toList_iff_getElem?_eq_some.2 hy)

end

end ModalBounds
