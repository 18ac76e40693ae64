import Mathlib
import ModalBounds.Proofs.Evaluation.Outcome
import ModalBounds.Proofs.Evaluation.Success
import ModalBounds.Proofs.Scalar.Field

/-!
# What a run records

Nodes are completed in post-order: `Expr.record` does what recording their intervals one after the
other does, up to the first node that has none (`record_eq`). What is gained on the way is `Gained`,
kept by one node (`Gained.cons`) and so by any number of them (`recordNodes_of_ok`). A node that has
no interval although its operands have one is a power whose exponent is no integer
(`exists_power_of_error`), so a run ends either with all nodes recorded, or at the first such power
with those before it (`Program.outcome_records`).
-/

namespace ModalBounds

/-! ### What is gained -/

/-- Some nodes have been completed: the intervals that were recorded are kept, each of the nodes
without one has gained its value, and nothing else is recorded. -/
structure Gained {α : Type} (value : Expr α → Except (ModelError α) (ModalInterval α))
    (nodes : List (ℕ × Expr α)) (before after : NodeIntervals α) : Prop where
  kept : ∀ n ∈ before, after[n]? = before[n]?
  gained : ∀ n a, (n, a) ∈ nodes → ∃ x, value a = .ok x ∧ (n ∉ before → after[n]? = some x)
  mem_of_mem : ∀ n ∈ after, n ∈ before ∨ ∃ a, (n, a) ∈ nodes

namespace Gained

variable {α : Type} {value value' : Expr α → Except (ModelError α) (ModalInterval α)}
variable {nodes : List (ℕ × Expr α)} {before after : NodeIntervals α} {n : ℕ} {a : Expr α}
  {x : ModalInterval α}

theorem nil (value : Expr α → Except (ModelError α) (ModalInterval α)) (before : NodeIntervals α) :
    Gained value [] before before :=
  ⟨fun _ _ => rfl, (fun _ _ h => nomatch h), fun _ h => .inl h⟩

theorem congr (h : Gained value nodes before after)
    (heq : ∀ n a, (n, a) ∈ nodes → value' a = value a) :
    Gained value' nodes before after where
  kept := h.kept
  gained n a ha := by
    rw [heq n a ha]
    exact h.gained n a ha
  mem_of_mem := h.mem_of_mem

/-- One node is completed before the others. -/
theorem cons (hx : value a = .ok x) (huniq : ∀ b, (n, b) ∈ nodes → b = a)
    (h : Gained value nodes (before.insertIfNew n x) after) :
    Gained value ((n, a) :: nodes) before after := by
  have hmem : ∀ m, m ∈ before.insertIfNew n x ↔ m = n ∨ m ∈ before := fun m => by
    rw [Std.ExtTreeMap.mem_insertIfNew, compare_eq_iff_eq, eq_comm]
  -- the node itself is left alone once it is recorded
  have hself (hn : n ∉ before) : after[n]? = some x := by
    rw [h.kept n ((hmem n).2 (.inl rfl)), Std.ExtTreeMap.getElem?_insertIfNew, if_pos ⟨by simp, hn⟩]
  constructor
  · intro m hm
    rw [h.kept m ((hmem m).2 (.inr hm)), Std.ExtTreeMap.getElem?_insertIfNew, if_neg]
    rintro ⟨heq, hn⟩
    rw [compare_eq_iff_eq] at heq
    exact hn (heq ▸ hm)
  · intro m b hb
    rcases List.mem_cons.1 hb with hhead | htail
    · cases hhead
      exact ⟨x, hx, hself⟩
    · obtain ⟨y, hy, hafter⟩ := h.gained m b htail
      refine ⟨y, hy, fun hm => ?_⟩
      by_cases hmn : m = n
      · subst hmn
        obtain rfl := huniq b htail
        rw [hself hm, Except.ok.inj (hx.symm.trans hy)]
      · exact hafter fun hmid => ((hmem m).1 hmid).elim hmn hm
  · intro m hm
    rcases h.mem_of_mem m hm with hmid | ⟨b, hb⟩
    · rcases (hmem m).1 hmid with rfl | hm
      · exact .inr ⟨a, by simp⟩
      · exact .inl hm
    · exact .inr ⟨b, List.mem_cons_of_mem _ hb⟩

end Gained

/-! ### Recording one node after the other -/

namespace Expr

variable {α : Type} [Elementary α] {env : Environment α}

/-- Records the intervals of some nodes, up to the first that has none. -/
def recordNodes (env : Environment α) : List (ℕ × Expr α) → Recording α Unit
  | [] => return
  | (n, a) :: nodes => do
    let x ← MonadExcept.ofExcept (a.interval env)
    modify (·.insertIfNew n x)
    recordNodes env nodes

theorem recordNodes_append (l₁ l₂ : List (ℕ × Expr α)) :
    recordNodes env (l₁ ++ l₂) = recordNodes env l₁ >>= fun _ => recordNodes env l₂ := by
  induction l₁ with
  | nil => rfl
  | cons p l₁ ih => simp only [List.cons_append, recordNodes, ih, bind_assoc]

theorem recordNodes_postorder_bind {β : Type} {e : Expr α} {err : ModelError α}
    (h : e.interval env = .error err)
    (first : ℕ) (f : Unit → Recording α β) :
    recordNodes env (e.postorder first) >>= f =
      recordNodes env (e.postorder first) >>= fun _ => MonadExcept.throw err := by
  obtain ⟨s, args⟩ := e
  rw [postorder, recordNodes_append, bind_assoc, bind_assoc]
  refine bind_congr fun _ => ?_
  rw [recordNodes, h]
  rfl

/-- The recursion records the nodes in post-order. -/
theorem record_eq (e : Expr α) : ∀ first, e.record env first =
    recordNodes env (e.postorder first) >>= fun _ => MonadExcept.ofExcept (e.interval env) := by
  induction e with
  | node s args ih =>
    have hargs : ∀ first, recordAll env first args =
        recordNodes env (postorderAll first args) >>= fun _ =>
        MonadExcept.ofExcept (intervals env args) := by
      -- the operands are taken one by one, whatever symbol stands above them
      clear s
      induction args with
      | nil => exact fun _ => rfl
      | cons a args iha =>
        intro first
        rw [List.forall_mem_cons] at ih
        rw [recordAll, postorderAll, recordNodes_append, intervals, ih.1, iha ih.2]
        cases ha : a.interval env with
        | error err =>
          rw [bind_assoc, bind_assoc]
          exact (recordNodes_postorder_bind ha first _).trans
            (recordNodes_postorder_bind ha first _).symm
        | ok x =>
          simp only [bind_assoc]
          refine bind_congr fun _ => (bind_congr fun _ => ?_ : recordNodes env _ >>= _ = _)
          cases intervals env args <;> rfl
    intro first
    -- recording an interval that there is and then failing to have it cannot happen
    have hlast (r : Except (ModelError α) (ModalInterval α)) :
        (do
          let x ← MonadExcept.ofExcept r
          modify (·.insertIfNew first x)
          return x : Recording α _) =
          (do let x ← MonadExcept.ofExcept r; modify (·.insertIfNew first x)) >>= fun _ =>
            MonadExcept.ofExcept r := by
      cases r <;> rfl
    rw [record, hargs, postorder, recordNodes_append, bind_assoc, bind_assoc]
    refine bind_congr fun _ => ?_
    rw [recordNodes, interval]
    cases intervals env args with
    | error err => rfl
    | ok xs => exact hlast (s.interval env xs)

theorem run_recordNodes_cons {n : ℕ} {a : Expr α} {x : ModalInterval α}
    (hx : a.interval env = .ok x)
    (nodes : List (ℕ × Expr α)) (before : NodeIntervals α) :
    (recordNodes env ((n, a) :: nodes)).run.run before =
      (recordNodes env nodes).run.run (before.insertIfNew n x) := by
  rw [recordNodes, hx]
  rfl

/-- Nodes that have intervals are completed all, whatever comes after them. -/
theorem recordNodes_of_ok {nodes : List (ℕ × Expr α)}
    (huniq : ∀ n a b, (n, a) ∈ nodes → (n, b) ∈ nodes → a = b)
    (hok : ∀ n a, (n, a) ∈ nodes → ∃ x, a.interval env = .ok x) (before : NodeIntervals α) :
    ∃ after, Gained (interval env) nodes before after ∧ ∀ rest,
      (recordNodes env (nodes ++ rest)).run.run before = (recordNodes env rest).run.run after := by
  induction nodes generalizing before with
  | nil => exact ⟨before, .nil _ before, fun _ => rfl⟩
  | cons p nodes ih =>
    obtain ⟨n, a⟩ := p
    obtain ⟨x, hx⟩ := hok n a (by simp)
    obtain ⟨after, hgained, hrest⟩ :=
      ih (fun m b c hb hc => huniq m b c (List.mem_cons_of_mem _ hb) (List.mem_cons_of_mem _ hc))
        (fun m b hb => hok m b (List.mem_cons_of_mem _ hb)) (before.insertIfNew n x)
    refine ⟨after, hgained.cons hx fun b hb => huniq n b a (List.mem_cons_of_mem _ hb) (by simp),
      fun rest => ?_⟩
    rw [List.cons_append, run_recordNodes_cons hx, hrest]

/-! ### The first node without an interval -/

/-- Of some nodes the first that has no interval has operands with intervals, so its own symbol
fails. -/
def FailsFirst (env : Environment α) (err : ModelError α) (nodes : List (ℕ × Expr α)) : Prop :=
  ∃ l₁ n s args xs l₂, nodes = l₁ ++ (n, node s args) :: l₂ ∧
    (∀ m b, (m, b) ∈ l₁ → ∃ x, b.interval env = .ok x) ∧
    intervals env args = .ok xs ∧ s.interval env xs = .error err

namespace FailsFirst

variable {err : ModelError α} {nodes : List (ℕ × Expr α)}

theorem append (h : FailsFirst env err nodes) (l : List (ℕ × Expr α)) :
    FailsFirst env err (nodes ++ l) := by
  obtain ⟨l₁, n, s, args, xs, l₂, rfl, h⟩ := h
  exact ⟨l₁, n, s, args, xs, l₂ ++ l, by simp, h⟩

theorem prepend {l : List (ℕ × Expr α)} (hl : ∀ m b, (m, b) ∈ l → ∃ x, b.interval env = .ok x)
    (h : FailsFirst env err nodes) : FailsFirst env err (l ++ nodes) := by
  obtain ⟨l₁, n, s, args, xs, l₂, rfl, hl₁, h⟩ := h
  refine ⟨l ++ l₁, n, s, args, xs, l₂, by simp, fun m b hb => ?_, h⟩
  exact (List.mem_append.1 hb).elim (hl m b) (hl₁ m b)

end FailsFirst

theorem exists_interval_of_mem_postorder {e : Expr α} {x : ModalInterval α}
    (h : e.interval env = .ok x)
    {first n : ℕ} {a : Expr α} (ha : (n, a) ∈ e.postorder first) : ∃ y, a.interval env = .ok y :=
  exists_interval_of_mem_preorder h a (mem_preorder_of_mem_postorder ha)

theorem exists_interval_of_mem_postorderAll {args : List (Expr α)} {xs : List (ModalInterval α)}
    (h : intervals env args = .ok xs) {first n : ℕ} {a : Expr α}
    (ha : (n, a) ∈ postorderAll first args) : ∃ y, a.interval env = .ok y := by
  induction args generalizing first xs with
  | nil => exact nomatch ha
  | cons b args ih =>
    obtain ⟨y, hy, h⟩ := bind_eq_ok.1 h
    obtain ⟨ys, hys, -⟩ := bind_eq_ok.1 h
    rw [postorderAll, List.mem_append] at ha
    exact ha.elim (exists_interval_of_mem_postorder hy) (ih hys)

/-- An expression without an interval has a first node in post-order whose symbol fails, with the
same error. -/
theorem failsFirst_postorder {e : Expr α} {err : ModelError α}
    (h : e.interval env = .error err) (first : ℕ) : FailsFirst env err (e.postorder first) := by
  induction e generalizing first with
  | node s args ih =>
    have hargs : ∀ first,
        intervals env args = .error err → FailsFirst env err (postorderAll first args) := by
      clear h
      induction args with
      | nil => exact fun _ h => nomatch h
      | cons a args iha =>
        intro first hxs
        rw [List.forall_mem_cons] at ih
        rw [postorderAll]
        rcases bind_eq_error.1 hxs with ha | ⟨x, hx, hxs⟩
        · exact (ih.1 ha first).append _
        · -- the operands before the one that fails are completed
          refine FailsFirst.prepend (fun m b hb => exists_interval_of_mem_postorder hx hb)
            (iha ih.2 _ ?_)
          rcases bind_eq_error.1 hxs with hxs | ⟨ys, -, hys⟩
          · exact hxs
          · cases hys
    rw [postorder]
    rw [interval] at h
    rcases bind_eq_error.1 h with hxs | ⟨xs, hxs, hs⟩
    · exact (hargs _ hxs).append _
    · exact ⟨postorderAll (first + 1) args, first, s, args, xs, [], rfl,
        fun m b hb => exists_interval_of_mem_postorderAll hxs hb, hxs, hs⟩

/-- Where all variables have ranges, a symbol that takes its operands fails only at a power, by its
exponent. -/
theorem exists_power_of_error {s : Symbol α} {xs : List (ModalInterval α)} {err : ModelError α}
    (htakes : s.Takes xs.length) (hvar : ∀ name weight, s = .var name weight → (env name).isSome)
    (h : s.interval env xs = .error err) :
    ∃ x y, s = .power ∧ xs = [x, y] ∧ ¬ y.IsExponent ∧
      err = .unsupportedExponent (if y.isDegenerate then .value y.lower else .range y) := by
  have hends : Ends (fun err => ∃ x y, s = .power ∧ xs = [x, y] ∧ Machine.powerOf x y = .error err)
      (fun _ => True) (s.interval env xs) := by
    refine ends_symbol_interval htakes hvar fun x y hs hxs => ?_
    cases hpow : Machine.powerOf x y with
    | ok z => trivial
    | error err => exact ⟨x, y, hs, hxs, hpow⟩
  obtain ⟨x, y, hs, hxs, hpow⟩ := hends.of_error h
  refine ⟨x, y, hs, hxs, fun hy => ?_, ?_⟩
  · obtain ⟨z, hz⟩ := exists_powerOf_iff.2 hy
    exact nomatch hpow.symm.trans hz
  · rw [Machine.powerOf] at hpow
    split at hpow
    · rename_i hdeg
      rw [if_pos hdeg]
      split at hpow
      · cases hpow
      · exact (Except.error.inj hpow).symm
    · rename_i hdeg
      rw [if_neg hdeg]
      exact (Except.error.inj hpow).symm

end Expr

namespace Program

variable {α : Type} [Elementary α] {env : Environment α} {e : Expr α} {p : Program α}

theorem evaluate_eq_of_mem_preorder (hp : compile e = .ok p)
    (henv : ∀ v ∈ e.variableOccurrences, (env v).isSome) {a : Expr α} (ha : a ∈ e.preorder) :
    a.evaluate env = a.interval env := by
  obtain ⟨q, hq⟩ :=
    Expr.instructions_isOk 0 fun b hb => accepts_of_mem hp b (Expr.mem_preorder_trans ha hb)
  rw [Expr.evaluate_of_compile hq,
    evaluate_eq hq fun v hv => henv v ((Expr.sublist_variableOccurrences ha).subset hv)]

theorem outcome_eq_recordNodes (hp : compile e = .ok p)
    (henv : ∀ v ∈ e.variableOccurrences, (env v).isSome)
    (before : NodeIntervals α) :
    p.outcome env before =
      (e.interval env, ((Expr.recordNodes env (e.postorder 0)).run.run before).2) := by
  have hfind : e.variableOccurrences.find? (fun v => !(env v).isSome) = none :=
    List.find?_eq_none.2 fun v hv => by simp [henv v hv]
  have hrecord : (e.record env 0).run.run before = p.outcome env before := by
    rw [outcome_eq hp, hfind]
  rw [← hrecord]
  refine Prod.ext (Expr.run_record_fst env e 0 before) ?_
  rw [Expr.record_eq, ExceptT.run_bind, StateT.run_bind]
  rcases (Expr.recordNodes env (e.postorder 0)).run.run before with ⟨err | ⟨⟩, after⟩
  · rfl
  · cases e.interval env <;> rfl

/-- Over ranges for all variables, either all nodes are completed, or those before the first power
in post-order whose exponent is no integer. -/
theorem outcome_gained (hp : compile e = .ok p) (henv : ∀ v ∈ e.variableOccurrences, (env v).isSome)
    (before : NodeIntervals α) :
    (∃ x after, p.outcome env before = (.ok x, after) ∧ e.evaluate env = .ok x ∧
      Gained (Expr.evaluate env) (e.postorder 0) before after) ∨
    ∃ l₁ n base k l₂ y after, e.postorder 0 = l₁ ++ (n, .node .power [base, k]) :: l₂ ∧
      k.evaluate env = .ok y ∧ ¬ y.IsExponent ∧
      (∀ m base' k', (m, .node .power [base', k']) ∈ l₁ → ∃ y',
        k'.evaluate env = .ok y' ∧ y'.IsExponent) ∧
      p.outcome env before =
        (.error (.unsupportedExponent (if y.isDegenerate then .value y.lower else .range y)),
          after) ∧
      Gained (Expr.evaluate env) l₁ before after := by
  have hevaluate : ∀ n a, (n, a) ∈ e.postorder 0 → ∀ b ∈ a.preorder,
      b.evaluate env = b.interval env :=
    fun n a ha b hb => evaluate_eq_of_mem_preorder hp henv
      (Expr.mem_preorder_trans (Expr.mem_preorder_of_mem_postorder ha) hb)
  -- a number is that of one node, so what is recorded for it does not depend on when
  have huniq : ∀ n a b, (n, a) ∈ e.postorder 0 → (n, b) ∈ e.postorder 0 → a = b :=
    fun n a b ha hb => Expr.eq_of_mem_postorder ha hb
  rw [outcome_eq_recordNodes hp henv]
  cases hx : e.interval env with
  | ok x =>
    obtain ⟨after, hgained, hrest⟩ := Expr.recordNodes_of_ok huniq
      (fun n a ha => Expr.exists_interval_of_mem_postorder hx ha) before
    have hrun := hrest []
    rw [List.append_nil] at hrun
    refine .inl ⟨x, after,
      by rw [hrun]; rfl, ?_, hgained.congr fun n a ha => hevaluate n a ha a a.mem_preorder_self⟩
    rw [evaluate_eq_of_mem_preorder hp henv e.mem_preorder_self, hx]
  | error err =>
    obtain ⟨l₁, n, s, args, xs, l₂, hl, hok, hxs, hs⟩ := Expr.failsFirst_postorder hx 0
    have hl₁ : ∀ m b, (m, b) ∈ l₁ → (m, b) ∈ e.postorder 0 := fun m b hb => by
      rw [hl]
      exact List.mem_append_left _ hb
    have hnode : (n, .node s args) ∈ e.postorder 0 := by
      rw [hl]
      simp
    have hmem : .node s args ∈ e.preorder := Expr.mem_preorder_of_mem_postorder hnode
    -- the node that fails is a power, and its operands are completed
    obtain ⟨x, y, rfl, rfl, hy, rfl⟩ := Expr.exists_power_of_error
      ((Expr.intervals_eq_ok.1 hxs).length_eq ▸ accepts_of_mem hp _ hmem)
      (fun name weight hname =>
        henv name (Expr.mem_variableOccurrences_iff.2 ⟨_, hmem, by rw [hname]; rfl⟩)) hs
    obtain _ | ⟨-, _ | ⟨hk, _ | _⟩⟩ := Expr.intervals_eq_ok.1 hxs
    obtain ⟨after, hgained, hrest⟩ := Expr.recordNodes_of_ok
      (fun m b c hb hc => huniq m b c (hl₁ m b hb) (hl₁ m c hc)) hok before
    refine .inr ⟨l₁, n, _, _, l₂, y, after, hl, ?_, hy, fun m base' k' hm => ?_, ?_,
      hgained.congr fun m b hb => hevaluate m b (hl₁ m b hb) b b.mem_preorder_self⟩
    · rw [hevaluate n _ hnode _ (Expr.mem_preorder_of_mem (by simp) (Expr.mem_preorder_self _)), hk]
    · obtain ⟨z, hz⟩ := hok m _ hm
      obtain ⟨y', hk', hy'⟩ := Expr.isExponent_of_interval hz (Expr.mem_preorder_self _)
      rw [hevaluate m _ (hl₁ m _ hm)
        _ (Expr.mem_preorder_of_mem (by simp) (Expr.mem_preorder_self _))]
      exact ⟨y', hk', hy'⟩
    · have hfails : (Expr.node .power _).interval env = .error _ :=
        (Expr.interval_node hxs).trans hs
      rw [hl, hrest, Expr.recordNodes, hfails]
      rfl

theorem outcome_missingRange (hp : compile e = .ok p) (env : Environment α)
    (before : NodeIntervals α)
    (hmissing : ∃ v ∈ e.variableOccurrences, env v = none) :
    ∃ l₁ a l₂ v, e.preorder = l₁ ++ a :: l₂ ∧
      a.variableName? = some v ∧ env v = none ∧
      (∀ b ∈ l₁, ∀ w, b.variableName? = some w → (env w).isSome) ∧
      p.outcome env before = (.error (.missingRange v), before) := by
  obtain ⟨w, hw, hnone⟩ := hmissing
  have hne : p.missing? (fun name => (env name).isSome) ≠ none := fun h => by
    rw [missing?_eq_find?_variableOccurrences hp] at h
    simpa [hnone] using isSome_of_find?_eq_none h w hw
  obtain ⟨v, hv⟩ := Option.ne_none_iff_exists'.1 hne
  have hfind := hv
  rw [missing?_eq_find? hp, List.find?_eq_some_iff_append] at hfind
  obtain ⟨hunknown, names, names', hsplit, hknown⟩ := hfind
  obtain ⟨l, l', hl, hnames, htail⟩ := List.filterMap_eq_append_iff.1 hsplit
  obtain ⟨m, a, l₂, rfl, hm, ha, -⟩ := List.filterMap_eq_cons_iff.1 htail
  refine ⟨l ++ m, a, l₂, v,
    by rw [hl, List.append_assoc], ha, by simpa using hunknown, fun b hb u hu => ?_, ?_⟩
  · rcases List.mem_append.1 hb with hb | hb
    · simpa using hknown u (hnames ▸ List.mem_filterMap.2 ⟨b, hb, hu⟩)
    · exact nomatch (hm b hb).symm.trans hu
  · rw [outcome, run, hv]

/-- Over ranges for all variables that a program has, its nodes are completed in post-order, a node
being known by its place in pre-order. Without a range for some variable nothing is recorded, and
the first such variable in pre-order is named. -/
theorem outcome_records (hp : compile e = .ok p) (env : Environment α) (before : NodeIntervals α) :
    (∀ n a, (n, a) ∈ e.postorder 0 ↔ e.preorder[n]? = some a) ∧
    ((∃ v ∈ e.variableOccurrences, env v = none) → ∃ l₁ a l₂ v, e.preorder = l₁ ++ a :: l₂ ∧
      a.variableName? = some v ∧ env v = none ∧
      (∀ b ∈ l₁, ∀ w, b.variableName? = some w → (env w).isSome) ∧
      p.outcome env before = (.error (.missingRange v), before)) ∧
    ((∀ v ∈ e.variableOccurrences, (env v).isSome) →
      (∃ x after, p.outcome env before = (.ok x, after) ∧ e.evaluate env = .ok x ∧
        Gained (Expr.evaluate env) (e.postorder 0) before after) ∨
      ∃ l₁ n base k l₂ y after, e.postorder 0 = l₁ ++ (n, .node .power [base, k]) :: l₂ ∧
        k.evaluate env = .ok y ∧ ¬ y.IsExponent ∧
        (∀ m base' k', (m, .node .power [base', k']) ∈ l₁ → ∃ y',
          k'.evaluate env = .ok y' ∧ y'.IsExponent) ∧
        p.outcome env before =
          (.error (.unsupportedExponent (if y.isDegenerate then .value y.lower else .range y)),
            after) ∧
        Gained (Expr.evaluate env) l₁ before after) := by
  exact ⟨fun n a => by simp [Expr.mem_postorder], outcome_missingRange hp env before,
    fun henv => outcome_gained hp henv before⟩

end Program

section
attribute [local instance] RealFunctions.zero

/-- The model `x ^ 2 + 2 ^ x`. -/
def squarePlusExponential : Expr ℚ :=
  .binary .add (.binary .power (.ofVariable "x") (.constant 2))
    (.binary .power (.constant 2) (.ofVariable "x"))

/-- The range `[1, 2]` for `x`. -/
def oneToTwo : Environment ℚ := Ranges.environment ((∅ : Ranges ℚ).insert "x" ⟨1, 2⟩)

/-- Over `[1, 2]` it fails at its second power, the node 4. The square and its operands, and the
operands of the second power, are recorded then, except for the node 2, which was recorded
before. -/
theorem outcome_squarePlusExponential : ∃ p l₁ base k l₂ y after,
    Program.compile squarePlusExponential = .ok p ∧
    squarePlusExponential.postorder 0 = l₁ ++ (4, .node .power [base, k]) :: l₂ ∧
    p.outcome oneToTwo ((∅ : NodeIntervals ℚ).insert 2 ⟨5, 6⟩) =
      (.error (.unsupportedExponent (.range y)), after) ∧ y.lower = 1 ∧ y.upper = 2 ∧
    Gained (Expr.evaluate oneToTwo) l₁ ((∅ : NodeIntervals ℚ).insert 2 ⟨5, 6⟩) after := by
  have hvars : squarePlusExponential.variableOccurrences = ["x", "x"] := by decide +kernel
  have henv : ∀ v ∈ squarePlusExponential.variableOccurrences, (oneToTwo v).isSome := by
    rw [hvars]
    decide +kernel
  have hp : Program.compile squarePlusExponential = .ok _ := rfl
  obtain ⟨hnumbers, -, hknown⟩ :=
    Program.outcome_records hp oneToTwo ((∅ : NodeIntervals ℚ).insert 2 ⟨5, 6⟩)
  rcases hknown henv with ⟨x, after, -, hx, -⟩ | ⟨l₁, n, base, k, l₂, y, after, hsplit, hk, hexp, -,
    hrun, hgained⟩
  · rw [Program.evaluate_eq_of_mem_preorder hp henv (Expr.mem_preorder_self _)] at hx
    have hnone : (squarePlusExponential.interval oneToTwo).toOption.isNone := by decide +kernel
    rw [hx] at hnone
    exact nomatch hnone
  · have hmem : squarePlusExponential.preorder[n]? = some (.node .power [base, k]) :=
      (hnumbers n _).1 (by rw [hsplit]; simp)
    rw [Program.evaluate_eq_of_mem_preorder hp henv
      (Expr.mem_preorder_trans (List.mem_of_getElem? hmem)
      (Expr.mem_preorder_of_mem (by simp) (Expr.mem_preorder_self _)))] at hk
    have hn : n < 7 := (List.getElem?_eq_some_iff.1 hmem).1
    -- of the two powers the first has an integer in its exponent
    obtain ⟨rfl, rfl⟩ : n = 4 ∧ k = .ofVariable "x" := by
      interval_cases n <;> cases hmem
      · cases hk
        exact absurd (by decide +kernel) hexp
      · exact ⟨rfl, rfl⟩
    obtain ⟨z, hz, hdeg, hlower, hupper⟩ : ∃ z, (Expr.ofVariable "x").interval oneToTwo = .ok z ∧
        z.isDegenerate = false ∧ z.lower = 1 ∧ z.upper = 2 := ⟨_, rfl, by decide +kernel⟩
    obtain rfl : z = y := Except.ok.inj (hz.symm.trans hk)
    rw [hdeg] at hrun
    exact ⟨_, l₁, base, _, l₂, z, after, hp, hsplit, hrun, hlower, hupper, hgained⟩

end

end ModalBounds
