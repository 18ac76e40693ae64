import Mathlib
import ModalBounds.Evaluation.Machine
import ModalBounds.Proofs.Failure
import ModalBounds.Proofs.Expr.Tree

/-!
# Evaluation by recursion

`Expr.interval` evaluates an expression over its structure, without code or cursor, and
`Expr.record` also records the interval of each node. A compiled program computes the same: its run
takes exactly the instructions of the expression (`Expr.simulates_record`), so `Program.run` and
`Program.evaluate` are opened by `run_eq` and `evaluate_eq` from here on.
-/

namespace ModalBounds

section
variable {α : Type} [Elementary α]

/-- The interval of a node, from those of its operands. -/
def Symbol.interval (env : Environment α) (s : Symbol α) (xs : List (ModalInterval α)) :
    Except (ModelError α) (ModalInterval α) :=
  match s, xs with
  | .var name weight, _ =>
    match env name with
    | some x => .ok (x * .point weight)
    | none => .error (.missingRange name)
  | .const value, _ => .ok (.point value)
  | .add, x :: xs => .ok (xs.foldl (· + ·) x)
  | .sub, [x] => .ok (-x)
  | .sub, x :: xs => .ok (xs.foldl (· - ·) x)
  | .mul, x :: xs => .ok (xs.foldl (· * ·) x)
  | .div, [x] => .ok x.recip
  | .div, x :: xs => .ok (xs.foldl (· / ·) x)
  | .sin, [x] => .ok x.sin
  | .cos, [x] => .ok x.cos
  | .tan, [x] => .ok x.tan
  | .tanh, [x] => .ok x.tanh
  | .log, [x] => .ok x.log
  | .exp, [x] => .ok x.exp
  | .square, [x] => .ok x.square
  | .sqrt, [x] => .ok x.sqrt
  | .abs, [x] => .ok x.abs
  | .power, [x, n] => Machine.powerOf x n
  | .analyticQuotient, [x, y] => .ok (x.analyticQuotient y)
  | .subFunction _, [x] => .ok x
  | _, _ => .error (.malformedTree 0 .endedEarly)

namespace Expr

mutual

/-- The interval of an expression; the error is that of the first operand that has one. -/
def interval (env : Environment α) : Expr α → Except (ModelError α) (ModalInterval α)
  | node s args => do
    let xs ← intervals env args
    s.interval env xs

def intervals (env : Environment α) : List (Expr α) → Except (ModelError α) (List (ModalInterval α))
  | [] => .ok []
  | a :: rest => do
    let x ← interval env a
    let xs ← intervals env rest
    return x :: xs

end

/-- An evaluation that records the intervals of nodes; what was recorded before a failure stays. -/
abbrev Recording (α β : Type) := ExceptT (ModelError α) (StateM (NodeIntervals α)) β

mutual

/-- The interval of an expression that is the node `first`, with those of its nodes recorded. -/
def record (env : Environment α) (first : Nat) : Expr α → Recording α (ModalInterval α)
  | node s args => do
    let xs ← recordAll env (first + 1) args
    let x ← MonadExcept.ofExcept (s.interval env xs)
    modify (·.insertIfNew first x)
    return x

def recordAll (env : Environment α) (first : Nat) :
    List (Expr α) → Recording α (List (ModalInterval α))
  | [] => return []
  | a :: rest => do
    let x ← record env first a
    let xs ← recordAll env (first + a.size) rest
    return x :: xs

end

end Expr

end

/-! ### Runs that take a stretch of code -/

/-- A run that starts with `code` does what the recording does, and takes exactly `code` if it does
not fail. -/
def Simulates {α β : Type} (m : Run α β) (code : Program α) (r : Expr.Recording α β) : Prop :=
  ∀ rest recorded, ∃ left,
    m.run.run ⟨code ++ rest, recorded⟩ =
      ((r.run.run recorded).1, ⟨left, (r.run.run recorded).2⟩) ∧
    ∀ b, (r.run.run recorded).1 = .ok b → left = rest

namespace Simulates

variable {α β γ : Type} {m : Run α β} {r : Expr.Recording α β} {c c' : Program α}

theorem pure (b : β) : Simulates (α := α) (Pure.pure b) [] (Pure.pure b) :=
  fun rest _ => ⟨rest, rfl, fun _ _ => rfl⟩

theorem throw (e : ModelError α) (c : Program α) :
    Simulates (β := β) (MonadExcept.throw e) c (MonadExcept.throw e) :=
  fun rest _ => ⟨c ++ rest, rfl, fun _ h => nomatch h⟩

theorem ofExcept (x : Except (ModelError α) β) :
    Simulates (MonadExcept.ofExcept x) [] (MonadExcept.ofExcept x) := by
  cases x with
  | ok b => exact pure b
  | error e => exact throw e []

theorem bind {f : β → Run α γ} {g : β → Expr.Recording α γ} (h : Simulates m c r)
    (hf : ∀ b, Simulates (f b) c' (g b)) : Simulates (m >>= f) (c ++ c') (r >>= g) := by
  intro rest recorded
  obtain ⟨left, hrun, hleft⟩ := h (c' ++ rest) recorded
  rw [← List.append_assoc] at hrun
  simp only [ExceptT.run_bind, StateT.run_bind, hrun]
  rcases hr : r.run.run recorded with ⟨b | b, recorded'⟩
  · exact ⟨left, rfl, fun _ h => nomatch h⟩
  · rw [hleft b (by rw [hr])]
    exact hf b rest recorded'

theorem congr {m' : Run α β} {r' : Expr.Recording α β} (h : Simulates m c r)
    (hm : m = m') (hc : c = c')
    (hr : r = r') : Simulates m' c' r' := hm ▸ hc ▸ hr ▸ h

end Simulates

/-! ### The code of an expression -/

namespace Program

variable {α : Type}

theorem instructions_append {first : Nat} {l₁ l₂ : List (Expr α)} {code : Program α}
    (h : instructions first (l₁ ++ l₂) = .ok code) :
    ∃ c₁ c₂, instructions first l₁ = .ok c₁ ∧ instructions (first + l₁.length) l₂ = .ok c₂ ∧
      code = c₁ ++ c₂ := by
  induction l₁ generalizing first code with
  | nil => exact ⟨[], code, rfl, h, rfl⟩
  | cons e l₁ ih =>
    rw [List.cons_append, instructions] at h
    obtain ⟨i, hi, h⟩ := bind_eq_ok.1 h
    obtain ⟨c, hc, h⟩ := bind_eq_ok.1 h
    obtain ⟨c₁, c₂, h₁, h₂, rfl⟩ := ih hc
    refine ⟨i :: c₁, c₂, ?_, ?_, (pure_eq_ok.1 h).symm⟩
    · rw [instructions, hi]
      exact bind_eq_ok.2 ⟨i, rfl, bind_eq_ok.2 ⟨c₁, h₁, rfl⟩⟩
    · rw [List.length_cons, Nat.add_comm l₁.length 1, ← Nat.add_assoc]; exact h₂

theorem instruction_eq_ok {e : Expr α} {n : Nat} {i : Instruction α} (h : instruction e n = .ok i) :
    ∃ op, Opcode.ofSymbol? e.symbol = some op ∧ op.accepts e.operands.length = true ∧
      i = ⟨op, e, n, e.operands.length⟩ := by
  rw [instruction] at h
  split at h
  · cases h
  · rename_i op hop
    split at h
    · rename_i hacc
      cases h
      exact ⟨op, hop, hacc, rfl⟩
    · cases h

theorem accepts_of_mem {l : List (Expr α)} {first : Nat} {code : Program α}
    (h : instructions first l = .ok code) :
    ∀ a ∈ l, ∃ op, Opcode.ofSymbol? a.symbol = some op ∧ op.accepts a.operands.length = true := by
  induction l generalizing first code with
  | nil => simp
  | cons e l ih =>
    obtain ⟨i, hi, h⟩ := bind_eq_ok.1 h
    obtain ⟨c, hc, -⟩ := bind_eq_ok.1 h
    obtain ⟨op, hop, hacc, -⟩ := instruction_eq_ok hi
    exact List.forall_mem_cons.2 ⟨⟨op, hop, hacc⟩, ih hc⟩

theorem instructions_node {first : Nat} {s : Symbol α} {args : List (Expr α)} {code : Program α}
    (h : instructions first (Expr.node s args).preorder = .ok code) :
    ∃ op c, Opcode.ofSymbol? s = some op ∧ op.accepts args.length = true ∧
      instructions (first + 1) (args.flatMap Expr.preorder) = .ok c ∧
      code = ⟨op, .node s args, first, args.length⟩ :: c := by
  rw [Expr.preorder_node, instructions] at h
  obtain ⟨i, hi, h⟩ := bind_eq_ok.1 h
  obtain ⟨c, hc, h⟩ := bind_eq_ok.1 h
  obtain ⟨op, hop, hacc, rfl⟩ := instruction_eq_ok hi
  exact ⟨op, c, hop, hacc, hc, (pure_eq_ok.1 h).symm⟩

end Program

section
variable {α : Type} {args : List (Expr α)} {first : Nat} {code : Program α}

/-- Each operand of a node, wherever it stands, is simulated by `operand`. -/
def OperandsSimulated [Elementary α] (env : Environment α) (operand : Run α (ModalInterval α))
    (args : List (Expr α)) : Prop :=
  ∀ a ∈ args, ∀ n c, Program.instructions n a.preorder = .ok c →
    Simulates operand c (a.record env n)

variable [Elementary α] {env : Environment α} {operand : Run α (ModalInterval α)}

theorem OperandsSimulated.accumulate (op : ModalInterval α → ModalInterval α → ModalInterval α)
    (h : OperandsSimulated env operand args)
    (hc : Program.instructions first (args.flatMap Expr.preorder) = .ok code)
    (total : ModalInterval α) :
    Simulates (Machine.accumulate op operand args.length total) code
      (Expr.recordAll env first args >>= fun xs => pure (xs.foldl op total)) := by
  induction args generalizing first code total with
  | nil =>
    obtain rfl := pure_eq_ok.1 hc
    exact .pure total
  | cons a args ih =>
    rw [List.flatMap_cons] at hc
    obtain ⟨c₁, c₂, h₁, h₂, rfl⟩ := Program.instructions_append hc
    rw [Expr.length_preorder] at h₂
    refine (Simulates.bind (h a (by simp) _ _ h₁) fun x =>
      ih (fun b hb => h b (List.mem_cons_of_mem _ hb)) h₂ (op total x)).congr rfl rfl ?_
    simp [Expr.recordAll]

theorem OperandsSimulated.fold (op : ModalInterval α → ModalInterval α → ModalInterval α)
    {a : Expr α} (h : OperandsSimulated env operand (a :: args))
    (hc : Program.instructions first ((a :: args).flatMap Expr.preorder) = .ok code) :
    Simulates (Machine.fold op operand (a :: args).length) code (do
      let x ← a.record env first
      let xs ← Expr.recordAll env (first + a.size) args
      return xs.foldl op x) := by
  rw [List.flatMap_cons] at hc
  obtain ⟨c₁, c₂, h₁, h₂, rfl⟩ := Program.instructions_append hc
  rw [Expr.length_preorder] at h₂
  exact Simulates.bind (h a (by simp) _ _ h₁) fun x =>
    OperandsSimulated.accumulate op (fun b hb => h b (List.mem_cons_of_mem _ hb)) h₂ x

theorem OperandsSimulated.unary {a : Expr α} (s : Symbol α)
    (h : OperandsSimulated env operand [a])
    (hc : Program.instructions first ([a].flatMap Expr.preorder) = .ok code) :
    Simulates (operand >>= fun x => MonadExcept.ofExcept (s.interval env [x])) code
      (Expr.recordAll env first [a] >>= fun xs => MonadExcept.ofExcept (s.interval env xs)) := by
  rw [List.flatMap_singleton] at hc
  refine ((h a (by simp) _ _ hc).bind fun x => .ofExcept (s.interval env [x])).congr rfl
    (List.append_nil code) ?_
  simp [Expr.recordAll]

theorem OperandsSimulated.binary {a b : Expr α} (s : Symbol α)
    (h : OperandsSimulated env operand [a, b])
    (hc : Program.instructions first ([a, b].flatMap Expr.preorder) = .ok code) :
    Simulates (do let x ← operand; let y ← operand; MonadExcept.ofExcept (s.interval env [x, y]))
      code (Expr.recordAll env first [a, b] >>= fun xs =>
        MonadExcept.ofExcept (s.interval env xs)) := by
  rw [List.flatMap_cons] at hc
  obtain ⟨c₁, c₂, h₁, h₂, rfl⟩ := Program.instructions_append hc
  rw [Expr.length_preorder, List.flatMap_singleton] at h₂
  refine (Simulates.bind (h a (by simp) _ _ h₁) fun x =>
    (h b (by simp) _ _ h₂).bind fun y => .ofExcept (s.interval env [x, y])).congr rfl
      (by rw [List.append_nil]) ?_
  simp [Expr.recordAll]

/-- The instruction of a node computes the node's interval from those of its operands. -/
theorem OperandsSimulated.apply {s : Symbol α} {op : Opcode} (hop : Opcode.ofSymbol? s = some op)
    (hacc : op.accepts args.length = true) (h : OperandsSimulated env operand args)
    (hc : Program.instructions first (args.flatMap Expr.preorder) = .ok code) (n : Nat) :
    Simulates (Machine.apply env operand ⟨op, .node s args, n, args.length⟩) code
      (Expr.recordAll env first args >>= fun xs => MonadExcept.ofExcept (s.interval env xs)) := by
  cases s with
  | var name weight =>
    cases hop
    obtain rfl : args = [] := by simpa [Opcode.accepts] using hacc
    obtain rfl := pure_eq_ok.1 hc
    refine (Simulates.ofExcept (Symbol.interval env (.var name weight) [])).congr ?_ rfl rfl
    simp only [Machine.apply, Machine.variableRange, Expr.symbol, Symbol.interval]
    cases env name <;> rfl
  | const value =>
    cases hop
    obtain rfl : args = [] := by simpa [Opcode.accepts] using hacc
    obtain rfl := pure_eq_ok.1 hc
    exact .pure (ModalInterval.point value)
  | add =>
    cases hop
    cases args with
    | nil => cases hacc
    | cons a args =>
      exact (h.fold (· + ·) hc).congr rfl rfl (by simp [Expr.recordAll, Symbol.interval]; rfl)
  | mul =>
    cases hop
    cases args with
    | nil => cases hacc
    | cons a args =>
      exact (h.fold (· * ·) hc).congr rfl rfl (by simp [Expr.recordAll, Symbol.interval]; rfl)
  | sub =>
    cases hop
    rcases args with _ | ⟨a, _ | ⟨b, args⟩⟩
    · cases hacc
    · exact h.unary .sub hc
    · exact (h.fold (· - ·) hc).congr rfl rfl (by simp [Expr.recordAll, Symbol.interval]; rfl)
  | div =>
    cases hop
    rcases args with _ | ⟨a, _ | ⟨b, args⟩⟩
    · cases hacc
    · exact h.unary .div hc
    · exact (h.fold (· / ·) hc).congr rfl rfl (by simp [Expr.recordAll, Symbol.interval]; rfl)
  | power =>
    cases hop
    obtain ⟨a, b, rfl⟩ := List.length_eq_two.1 (by simpa [Opcode.accepts] using hacc)
    -- the machine looks for the exponent before it raises, the recursion in one go
    refine (h.binary .power hc).congr ?_ rfl rfl
    simp only [Machine.apply, Symbol.interval]
    refine bind_congr fun x => bind_congr fun y => ?_
    cases Machine.powerOf x y <;> rfl
  | analyticQuotient =>
    cases hop
    obtain ⟨a, b, rfl⟩ := List.length_eq_two.1 (by simpa [Opcode.accepts] using hacc)
    exact h.binary .analyticQuotient hc
  | subFunction name =>
    cases hop
    obtain ⟨a, rfl⟩ := List.length_eq_one_iff.1 (by simpa [Opcode.accepts] using hacc)
    -- a named part computes nothing: the machine goes on with its operand
    refine (h.unary (.subFunction name) hc).congr ?_ rfl rfl
    exact (bind_pure operand)
  | sin | cos | tan | tanh | log | exp | square | sqrt | abs =>
    cases hop
    obtain ⟨a, rfl⟩ := List.length_eq_one_iff.1 (by simpa [Opcode.accepts] using hacc)
    exact (h.unary _ hc).congr rfl rfl rfl
  | cube | cbrt | root | logistic | erf | min | max => cases hop

end

theorem Collection.environment_toRanges {α : Type} [Scalar α] (plain : Collection α) (v : String) :
    plain.toRanges.environment v = (plain[v]?).map Interval.toModal :=
  Std.ExtTreeMap.getElem?_map

/-! ### Whole runs -/

section
variable {α : Type}

/-- The variable that is reported as missing is the first that is not known, the nodes in
pre-order. -/
theorem Program.missing?_eq_find? {l : List (Expr α)} {first : Nat} {p : Program α}
    (hp : instructions first l = .ok p) (known : String → Bool) :
    p.missing? known = (l.filterMap Expr.variableName?).find? fun v => !known v := by
  induction l generalizing first p with
  | nil => cases pure_eq_ok.1 hp; rfl
  | cons e l ih =>
    rw [instructions] at hp
    obtain ⟨i, hi, hp⟩ := bind_eq_ok.1 hp
    obtain ⟨c, hc, hp⟩ := bind_eq_ok.1 hp
    obtain rfl := pure_eq_ok.1 hp
    obtain ⟨op, hop, -, rfl⟩ := instruction_eq_ok hi
    obtain ⟨s, args⟩ := e
    cases s <;> cases hop <;> simp [missing?, Expr.variableName?, List.find?_cons, ih hc]
    split <;> simp_all

theorem Program.missing?_eq_none {l : List (Expr α)} {first : Nat} {p : Program α}
    (hp : instructions first l = .ok p) (known : String → Bool) :
    p.missing? known = none ↔ ∀ a ∈ l, ∀ x, a.variableName? = some x → known x = true := by
  rw [missing?_eq_find? hp, List.find?_eq_none]
  simp only [List.mem_filterMap, Bool.not_eq_true', Bool.not_eq_false]
  exact ⟨fun h a ha x hx => h x ⟨a, ha, hx⟩, fun h x ⟨a, ha, hx⟩ => h a ha x hx⟩

theorem Simulates.fetch_bind {β : Type} {f : Instruction α → Run α β} {i : Instruction α}
    {c : Program α} {r : Expr.Recording α β} (h : Simulates (f i) c r) :
    Simulates (Machine.fetch >>= f) (i :: c) r :=
  fun rest recorded => h rest recorded

theorem Simulates.record (n : Nat) (x : ModalInterval α) :
    Simulates (Machine.record n x) [] (modify fun recorded => recorded.insertIfNew n x) :=
  fun rest _ => ⟨rest, rfl, fun _ _ => rfl⟩

variable [Elementary α] {env : Environment α}

/-- A run with enough fuel takes the code of an expression and does what the recursion does. -/
theorem Expr.simulates_record (env : Environment α) (e : Expr α) :
    ∀ {first fuel code}, Program.instructions first e.preorder = .ok code → e.size ≤ fuel →
      Simulates (Machine.next env fuel) code (e.record env first) := by
  induction e with
  | node s args ih =>
    intro first fuel code hcode hfuel
    obtain ⟨op, c, hop, hacc, hc, rfl⟩ := Program.instructions_node hcode
    cases fuel with
    | zero => simp [size] at hfuel
    | succ fuel =>
      have hargs : OperandsSimulated env (Machine.next env fuel) args := fun a ha n c hc =>
        ih a ha hc (by have := size_le_of_mem ha; rw [size] at hfuel; omega)
      have hnode := (hargs.apply hop hacc hc first).bind fun x =>
        (Simulates.record first x).bind fun _ => Simulates.pure x
      exact (Simulates.fetch_bind hnode).congr rfl (by simp) (by simp [Expr.record])

omit [Elementary α] in
theorem Expr.run_bind_fst {β γ : Type} (r : Recording α β) (f : β → Recording α γ)
    (recorded : NodeIntervals α) :
    ((r >>= f).run.run recorded).1 =
      (r.run.run recorded).1 >>= fun b => ((f b).run.run (r.run.run recorded).2).1 := by
  rw [ExceptT.run_bind, StateT.run_bind]
  rcases r.run.run recorded with ⟨e | b, recorded'⟩ <;> rfl

theorem Expr.run_recordAll_fst (env : Environment α) {args : List (Expr α)}
    (h : ∀ a ∈ args, ∀ first recorded, ((a.record env first).run.run recorded).1 = a.interval env) :
    ∀ first recorded, ((recordAll env first args).run.run recorded).1 = intervals env args := by
  induction args with
  | nil => intros; rfl
  | cons a args ih =>
    intro first recorded
    rw [List.forall_mem_cons] at h
    have hrest := ih h.2
    rw [recordAll, intervals, run_bind_fst, h.1]
    refine bind_congr fun x => ?_
    rw [run_bind_fst, hrest]
    rfl

theorem Expr.run_record_fst (env : Environment α) (e : Expr α) :
    ∀ first recorded, ((e.record env first).run.run recorded).1 = e.interval env := by
  induction e with
  | node s args ih =>
    intro first recorded
    rw [record, interval, run_bind_fst, run_recordAll_fst env ih]
    refine bind_congr fun xs => ?_
    rw [run_bind_fst]
    cases s.interval env xs <;> rfl

theorem Expr.interval_node {s : Symbol α} {args : List (Expr α)} {xs : List (ModalInterval α)}
    (h : intervals env args = .ok xs) : (node s args).interval env = s.interval env xs := by
  rw [interval, h]
  rfl

theorem Expr.intervals_eq_ok {args : List (Expr α)} {xs : List (ModalInterval α)} :
    intervals env args = .ok xs ↔ List.Forall₂ (fun a x => a.interval env = .ok x) args xs := by
  induction args generalizing xs with
  | nil => rw [intervals, List.forall₂_nil_left_iff, Except.ok.injEq, eq_comm]
  | cons a args ih =>
    simp only [intervals, bind_eq_ok, pure_eq_ok, ih, List.forall₂_cons_left_iff]
    constructor
    · rintro ⟨x, hx, ys, hys, rfl⟩
      exact ⟨x, ys, hx, hys, rfl⟩
    · rintro ⟨x, ys, hx, hys, rfl⟩
      exact ⟨x, hx, ys, hys, rfl⟩

theorem Expr.intervals_congr {env' : Environment α} {args args' : List (Expr α)}
    (h : List.Forall₂ (fun a a' => a.interval env = a'.interval env') args args') :
    intervals env args = intervals env' args' := by
  induction h with
  | nil => rfl
  | cons ha _ ih => rw [intervals, intervals, ha, ih]

theorem Expr.exists_interval_of_mem_preorder {e : Expr α} {x : ModalInterval α}
    (h : e.interval env = .ok x) : ∀ a ∈ e.preorder, ∃ y, a.interval env = .ok y := by
  induction e generalizing x with
  | node s args ih =>
    intro a ha
    rw [preorder_node, List.mem_cons, List.mem_flatMap] at ha
    rcases ha with rfl | ⟨b, hb, ha⟩
    · exact ⟨x, h⟩
    · obtain ⟨xs, hxs, -⟩ := bind_eq_ok.1 h
      obtain ⟨y, -, hy⟩ := exists_of_forall₂ (intervals_eq_ok.1 hxs) b hb
      exact ih b hb hy a ha

theorem Symbol.interval_congr {env' : Environment α} {s : Symbol α} (xs : List (ModalInterval α))
    (h : ∀ name weight, s = .var name weight → env name = env' name) :
    s.interval env xs = s.interval env' xs := by
  unfold Symbol.interval
  split
  · rw [h _ _ rfl]
  all_goals rfl

theorem Expr.interval_congr {env' : Environment α} {e : Expr α}
    (h : ∀ v ∈ e.variableOccurrences, env v = env' v) : e.interval env = e.interval env' := by
  induction e with
  | node s args ih =>
    have hargs : intervals env args = intervals env' args :=
      intervals_congr (List.forall₂_same.2 fun a ha => ih a ha fun v hv =>
        h v (mem_variableOccurrences_of_mem ha hv))
    rw [interval, interval, hargs]
    refine bind_congr fun xs => Symbol.interval_congr xs fun name weight hs => h name ?_
    subst hs
    simp [variableOccurrences_node, variableName?]

namespace Program

variable {e : Expr α} {p : Program α}

omit [Elementary α] in
theorem length_instructions {l : List (Expr α)} {first : Nat} (h : instructions first l = .ok p) :
    p.length = l.length := by
  induction l generalizing first p with
  | nil => cases pure_eq_ok.1 h; rfl
  | cons e l ih =>
    obtain ⟨i, -, h⟩ := bind_eq_ok.1 h
    obtain ⟨c, hc, h⟩ := bind_eq_ok.1 h
    rw [← pure_eq_ok.1 h, List.length_cons, List.length_cons, ih hc]

/-- A compiled program over an environment that has every variable does what the recursion does. -/
theorem run_eq (hp : compile e = .ok p) (henv : ∀ x ∈ e.variableOccurrences, (env x).isSome)
    (recorded : NodeIntervals α) :
    ∃ left, p.run env recorded = (((e.record env 0).run.run recorded).1,
      ⟨left, ((e.record env 0).run.run recorded).2⟩) := by
  have hnone : p.missing? (fun name => (env name).isSome) = none :=
    (missing?_eq_none hp _).2 fun a ha x hx =>
      henv x (Expr.mem_variableOccurrences_iff.2 ⟨a, ha, hx⟩)
  have hlen : e.size ≤ p.length := by rw [length_instructions hp, Expr.length_preorder]
  obtain ⟨left, h, -⟩ := e.simulates_record env hp hlen [] recorded
  rw [List.append_nil] at h
  exact ⟨left, by rw [run, hnone]; exact h⟩

theorem evaluate_eq (hp : compile e = .ok p) (henv : ∀ x ∈ e.variableOccurrences, (env x).isSome) :
    p.evaluate env = e.interval env := by
  obtain ⟨left, h⟩ := run_eq hp henv ∅
  rw [evaluate, h, Expr.run_record_fst]

theorem isSome_of_run_eq_ok (hp : compile e = .ok p) {recorded : NodeIntervals α}
    {x : ModalInterval α} (h : (p.run env recorded).1 = .ok x) :
    ∀ v ∈ e.variableOccurrences, (env v).isSome := by
  intro v hv
  obtain ⟨a, ha, hav⟩ := Expr.mem_variableOccurrences_iff.1 hv
  refine (missing?_eq_none hp fun name => (env name).isSome).1 ?_ a ha v hav
  by_contra hne
  obtain ⟨name, hname⟩ := Option.ne_none_iff_exists'.1 hne
  rw [run, hname] at h
  cases h

end Program
end

end ModalBounds
