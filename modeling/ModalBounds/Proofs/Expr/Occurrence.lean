import Mathlib
import ModalBounds.Expr.Occurrence
import ModalBounds.Proofs.Expr.Polynomial

/-!
# What the names of occurrences are

`Renaming.Named start vs os s` says what is known of a renaming `s` that has given the names `os`,
one after the other, to occurrences of the variables `vs`: the names are new and distinct, and those
of a variable are found under it in their order. Renaming an expression keeps it (`Named.rename`).
Undoing the renaming gives the expression back (`relabel_rename`).
-/

namespace ModalBounds

open Renaming

/-! ### New names -/

namespace Renaming

def padded (name : String) (count : ℕ) : String := (· ++ "_")^[count] name

theorem length_padded (name : String) (count : ℕ) :
    (padded name count).length = name.length + count := by
  induction count with
  | zero => rfl
  | succ n ih =>
    rw [padded, Function.iterate_succ_apply', ← padded, String.length_append, ih]
    rfl

theorem padded_injective (name : String) : Function.Injective (padded name) := by
  intro m n h
  have hlen := congrArg String.length h
  rw [length_padded, length_padded] at hlen
  exact Nat.add_left_cancel hlen

theorem padded_mem_of_padUnused_mem {used : List String} {limit : ℕ} {name : String}
    (h : padUnused used limit name ∈ used) : ∀ i ≤ limit, padded name i ∈ used := by
  induction limit generalizing name with
  | zero =>
    intro i hi
    obtain rfl : i = 0 := by omega
    exact h
  | succ limit ih =>
    rw [padUnused] at h
    split at h
    · rename_i hname
      intro i hi
      cases i with
      | zero => exact hname
      | succ i => exact ih h i (by omega)
    · contradiction

theorem freshName_not_mem (used : List String) (name : String) : freshName used name ∉ used := by
  intro h
  have hall := padded_mem_of_padUnused_mem h
  have hsub : (List.range (used.length + 1)).map (padded name) ⊆ used := by
    intro s hs
    obtain ⟨i, hi, rfl⟩ := List.mem_map.1 hs
    exact hall i (by have := List.mem_range.1 hi; omega)
  have hlen :=
    (List.subperm_of_subset (List.nodup_range.map (padded_injective name)) hsub).length_le
  rw [List.length_map, List.length_range] at hlen
  omega

/-! ### Names under their variables -/

theorem namesOf_cons (p : String × List String) (names : List (String × List String)) (v : String) :
    namesOf (p :: names) v = if p.1 = v then p.2 else namesOf names v := by
  by_cases h : p.1 = v <;> simp [namesOf, h]

theorem namesOf_addName (owner name v : String) (names : List (String × List String)) :
    namesOf (addName owner name names) v =
      if owner = v then namesOf names v ++ [name] else namesOf names v := by
  induction names with
  | nil => rw [addName, namesOf_cons]; rfl
  | cons p names ih =>
    rw [addName]
    split
    · rename_i h
      rw [namesOf_cons, namesOf_cons, h]
      split <;> rfl
    · rename_i h
      rw [namesOf_cons, namesOf_cons, ih]
      split
      · rename_i hv
        rw [if_neg fun ho => h (hv.trans ho.symm)]
      · rfl

theorem keys_addName (owner name : String) (names : List (String × List String)) :
    (addName owner name names).map (·.1) =
      if owner ∈ names.map (·.1) then names.map (·.1) else names.map (·.1) ++ [owner] := by
  induction names with
  | nil => rfl
  | cons p names ih =>
    rw [addName]
    split
    · rename_i h
      simp [h]
    · rename_i h
      simp only [List.map_cons, ih, List.mem_cons, Ne.symm h, false_or]
      split <;> rfl

theorem exists_mem_of_mem_namesOf {names : List (String × List String)} {v o : String}
    (h : o ∈ namesOf names v) : ∃ p ∈ names, o ∈ p.2 := by
  induction names with
  | nil => cases h
  | cons p names ih =>
    rw [namesOf_cons] at h
    split at h
    · exact ⟨p, by simp, h⟩
    · obtain ⟨q, hq, ho⟩ := ih h
      exact ⟨q, List.mem_cons_of_mem _ hq, ho⟩

theorem namesOf_eq_of_mem {names : List (String × List String)} (hn : (names.map (·.1)).Nodup)
    {p : String × List String} (hp : p ∈ names) : namesOf names p.1 = p.2 := by
  induction names with
  | nil => cases hp
  | cons q names ih =>
    rw [List.map_cons, List.nodup_cons] at hn
    rw [namesOf_cons]
    rcases List.mem_cons.1 hp with rfl | hp
    · rw [if_pos rfl]
    · have hne : q.1 ≠ p.1 := fun h => hn.1 (h ▸ List.mem_map_of_mem hp)
      rw [if_neg hne, ih hn.2 hp]

theorem nodup_eraseDups (l : List String) : l.eraseDups.Nodup := by
  induction l using List.reverseRecOn with
  | nil => exact .nil
  | append_singleton l a ih =>
    rw [List.eraseDups_append]
    by_cases ha : a ∈ l
    · simpa [List.removeAll, ha] using ih
    · simp only [List.removeAll, List.filter_cons, List.filter_nil, List.elem_eq_mem,
        ha, decide_false, Bool.not_false, if_true]
      refine List.nodup_append.2 ⟨ih, List.nodup_singleton a, ?_⟩
      rintro b hb c hc rfl
      rw [List.mem_singleton.1 hc] at hb
      exact ha (List.mem_eraseDups.1 hb)

theorem fst_eq_of_mem_zip {vs os : List String} (hn : os.Nodup) {v w o : String}
    (hv : (v, o) ∈ vs.zip os) (hw : (w, o) ∈ vs.zip os) : v = w := by
  induction vs generalizing os with
  | nil => simp at hv
  | cons x vs ih =>
    cases os with
    | nil => simp at hv
    | cons y os =>
      rw [List.nodup_cons] at hn
      rw [List.zip_cons_cons, List.mem_cons] at hv hw
      rcases hv with hv | hv <;> rcases hw with hw | hw
      · rw [(Prod.mk.inj hv).1, (Prod.mk.inj hw).1]
      · exact absurd (List.of_mem_zip hw).2 ((Prod.mk.inj hv).2 ▸ hn.1)
      · exact absurd (List.of_mem_zip hv).2 ((Prod.mk.inj hw).2 ▸ hn.1)
      · exact ih hn.2 hv hw

def nextName (s : Renaming) (owner : String) : String :=
  freshName s.used (owner ++ "_" ++ toString ((namesOf s.names owner).length + 1))

theorem nameOccurrence_run (owner : String) (s : Renaming) :
    (nameOccurrence owner).run s =
      (nextName s owner, ⟨nextName s owner :: s.used, addName owner (nextName s owner) s.names⟩) :=
  rfl

/-- What is known after the occurrences of the variables `vs` got the names `os`, where the names
`start` were used before. -/
structure Named (start vs os : List String) (s : Renaming) : Prop where
  length : os.length = vs.length
  nodup : os.Nodup
  fresh : ∀ o ∈ os, o ∉ start
  used : ∀ o, o ∈ s.used ↔ o ∈ os ∨ o ∈ start
  namesOf : ∀ v, namesOf s.names v = ((vs.zip os).filter (·.1 == v)).map (·.2)
  keys : s.names.map (·.1) = vs.eraseDups

variable {start vs os : List String} {s : Renaming}

theorem Named.init (start : List String) : Named start [] [] ⟨start, []⟩ where
  length := rfl
  nodup := .nil
  fresh := by simp
  used := by simp
  namesOf _ := rfl
  keys := rfl

theorem Named.length_namesOf (h : Named start vs os s) (v : String) :
    (Renaming.namesOf s.names v).length = vs.count v := by
  rw [h.namesOf, List.length_map, ← List.countP_eq_length_filter, List.count]
  conv_rhs => rw [← List.map_fst_zip h.length.ge, List.countP_map]
  rfl

theorem Named.nameOccurrence (h : Named start vs os s) (v : String) :
    Named start (vs ++ [v]) (os ++ [((nameOccurrence v).run s).1])
      ((nameOccurrence v).run s).2 := by
  have hfresh : nextName s v ∉ s.used := freshName_not_mem _ _
  rw [h.used, not_or] at hfresh
  rw [nameOccurrence_run]
  refine ⟨by simp [h.length], ?_, ?_, ?_, ?_, ?_⟩
  · refine List.nodup_append.2 ⟨h.nodup, List.nodup_singleton _, fun o ho o' ho' => ?_⟩
    rintro rfl
    rw [List.mem_singleton.1 ho'] at ho
    exact hfresh.1 ho
  · intro o ho
    rcases List.mem_append.1 ho with ho | ho
    · exact h.fresh o ho
    · rw [List.mem_singleton.1 ho]
      exact hfresh.2
  · intro o
    rw [List.mem_cons, h.used, List.mem_append, List.mem_singleton]
    exact or_left_comm.trans or_assoc.symm
  · intro w
    rw [namesOf_addName, h.namesOf w, List.zip_append h.length.symm, List.filter_append,
      List.map_append]
    by_cases hw : v = w
    · simp [hw]
    · simp [hw]
  · rw [keys_addName, h.keys, List.eraseDups_append]
    by_cases hv : v ∈ vs
    · simp [List.mem_eraseDups, hv, List.removeAll]
    · simp [List.mem_eraseDups, hv, List.removeAll]
      rfl

/-! ### Renaming an expression -/

section
variable {α : Type}

theorem renameAll_run_cons (a : Expr α) (rest : List (Expr α)) (s : Renaming) :
    (renameAll (a :: rest)).run s =
      (((rename a).run s).1 :: ((renameAll rest).run ((rename a).run s).2).1,
        ((renameAll rest).run ((rename a).run s).2).2) := rfl

theorem rename_run_var (name : String) (weight : α) (args : List (Expr α)) (s : Renaming) :
    (rename (.node (.var name weight) args)).run s =
      (.node (.var ((nameOccurrence name).run ((renameAll args).run s).2).1 weight)
          ((renameAll args).run s).1,
        ((nameOccurrence name).run ((renameAll args).run s).2).2) := rfl

theorem rename_run_node {sym : Symbol α} (h : (Expr.node sym []).variableName? = none)
    (args : List (Expr α)) (s : Renaming) :
    (rename (.node sym args)).run s =
      (.node sym ((renameAll args).run s).1, ((renameAll args).run s).2) := by
  cases sym <;> first | rfl | cases h

/-- What naming one occurrence keeps, renaming an expression keeps. `P vs os s` says of a renaming
`s` that the occurrences of the variables `vs` got the names `os`. -/
theorem rename_keeps {P : List String → List String → Renaming → Prop}
    (hstep : ∀ {vs os : List String} {s : Renaming} (v : String), P vs os s →
      P (vs ++ [v]) (os ++ [((nameOccurrence v).run s).1]) ((nameOccurrence v).run s).2)
    (e : Expr α) : ∀ {vs os : List String} {s : Renaming}, P vs os s →
      P (vs ++ e.variableOccurrences) (os ++ ((rename e).run s).1.variableOccurrences)
        ((rename e).run s).2 := by
  induction e with
  | node sym args ih =>
    have hargs : ∀ {vs os : List String} {s : Renaming}, P vs os s →
        P (vs ++ args.flatMap Expr.variableOccurrences)
          (os ++ ((renameAll args).run s).1.flatMap Expr.variableOccurrences)
          ((renameAll args).run s).2 := by
      -- the operands are renamed before the name of the node itself
      clear sym
      induction args with
      | nil =>
        intro vs os s h
        show P (vs ++ []) (os ++ []) s
        rwa [List.append_nil, List.append_nil]
      | cons a args iha =>
        intro vs os s h
        have hrest := iha (fun b hb => ih b (List.mem_cons_of_mem _ hb)) (ih a (by simp) h)
        rwa [List.append_assoc, List.append_assoc] at hrest
    intro vs os s h
    rcases hname : (Expr.node sym []).variableName? with _ | name
    · rw [rename_run_node hname, Expr.variableOccurrences_node,
        Expr.variableOccurrences_node, hname, Option.toList_none, List.append_nil, List.append_nil]
      exact hargs h
    · cases sym with
      | var name' weight =>
        have hnext := hstep name' (hargs h)
        rw [List.append_assoc, List.append_assoc] at hnext
        rw [rename_run_var, Expr.variableOccurrences_node, Expr.variableOccurrences_node]
        exact hnext
      | _ => cases hname

/-- Renaming an expression names its occurrences in their order. -/
theorem Named.rename (e : Expr α) (h : Named start vs os s) :
    Named start (vs ++ e.variableOccurrences)
      (os ++ ((Renaming.rename e).run s).1.variableOccurrences)
      ((Renaming.rename e).run s).2 :=
  rename_keeps (fun v h => h.nameOccurrence v) e h

end

end Renaming

/-! ### Undoing a renaming -/

def Symbol.relabel {α : Type} (f : String → String) : Symbol α → Symbol α
  | .var name weight => .var (f name) weight
  | s => s

namespace Expr

variable {α : Type}

mutual

/-- The expression with other names for its variables. -/
def relabel (f : String → String) : Expr α → Expr α
  | node (.var name weight) args => node (.var (f name) weight) (relabelAll f args)
  | node s args => node s (relabelAll f args)

def relabelAll (f : String → String) : List (Expr α) → List (Expr α)
  | [] => []
  | a :: rest => relabel f a :: relabelAll f rest

end

theorem relabelAll_eq (f : String → String) (args : List (Expr α)) :
    relabelAll f args = args.map (relabel f) := by
  induction args with
  | nil => rfl
  | cons a rest ih => rw [relabelAll, ih, List.map_cons]

theorem relabel_node (f : String → String) (s : Symbol α) (args : List (Expr α)) :
    (node s args).relabel f = node (s.relabel f) (args.map (relabel f)) := by
  rw [← relabelAll_eq]
  cases s <;> rfl

theorem variableName?_relabel (f : String → String) (s : Symbol α) (args args' : List (Expr α)) :
    (node (s.relabel f) args).variableName? = (node s args').variableName?.map f := by
  cases s <;> rfl

theorem ofSymbol?_relabel (f : String → String) (s : Symbol α) :
    Opcode.ofSymbol? (s.relabel f) = Opcode.ofSymbol? s := by
  cases s <;> rfl

theorem symbol_relabel_eq_self (f : String → String) {s : Symbol α}
    (h : (node s []).variableName? = none) : s.relabel f = s := by
  cases s with
  | var => cases h
  | _ => rfl

theorem preorder_relabel (f : String → String) (e : Expr α) :
    (e.relabel f).preorder = e.preorder.map (relabel f) := by
  induction e with
  | node s args ih =>
    have hargs : (args.map (relabel f)).flatMap preorder =
        (args.flatMap preorder).map (relabel f) := by
      rw [List.flatMap_map, List.map_flatMap]
      exact List.flatMap_congr ih
    rw [preorder_node, List.map_cons, relabel_node, preorder_node, hargs]

theorem variableOccurrences_relabel (f : String → String) (e : Expr α) :
    (e.relabel f).variableOccurrences = e.variableOccurrences.map f := by
  induction e with
  | node s args ih =>
    have hargs : (args.map (relabel f)).flatMap variableOccurrences =
        (args.flatMap variableOccurrences).map f := by
      rw [List.flatMap_map, List.map_flatMap]
      exact List.flatMap_congr ih
    rw [relabel_node, variableOccurrences_node, variableOccurrences_node, hargs, List.map_append,
      variableName?_relabel f s [] [], Option.toList_map]

theorem constantValue?_relabel (f : String → String) (e : Expr α) :
    (e.relabel f).constantValue? = e.constantValue? := by
  obtain ⟨s, args⟩ := e
  cases s <;> rfl

theorem size_relabel (f : String → String) (e : Expr α) : (e.relabel f).size = e.size := by
  rw [← length_preorder, preorder_relabel, List.length_map, length_preorder]

theorem postorder_relabel (f : String → String) (e : Expr α) :
    ∀ first, (e.relabel f).postorder first = (e.postorder first).map fun p =>
      (p.1, p.2.relabel f) := by
  induction e with
  | node s args ih =>
    have hargs : ∀ first, postorderAll first (args.map (relabel f)) =
        (postorderAll first args).map fun p => (p.1, p.2.relabel f) := by
      clear s
      induction args with
      | nil => exact fun _ => rfl
      | cons a args iha =>
        intro first
        rw [List.forall_mem_cons] at ih
        rw [List.map_cons, postorderAll, postorderAll, List.map_append, ih.1,
          size_relabel, iha ih.2]
    intro first
    rw [relabel_node, postorder, postorder, hargs, List.map_append,
      List.map_singleton, relabel_node]

theorem meaning_relabel {K F : Type} [Field K] [Field F] [Algebra K F] (I : Interpretation F)
    (ρ : String → F)
    (f : String → String) (e : Expr K) : (e.relabel f).meaning I ρ = e.meaning I (ρ ∘ f) := by
  induction e with
  | node s args ih =>
    have hargs : (args.map (relabel f)).map (meaning I ρ) = args.map (meaning I (ρ ∘ f)) := by
      rw [List.map_map]
      exact List.map_congr_left ih
    rw [relabel_node, meaning_node, meaning_node, hargs]
    cases s with
    | var => rfl
    | _ => exact Symbol.meaning_congr I _ nofun

theorem value_relabel {K : Type} [Field K] [Algebra K ℝ] (f : String → String) (ρ : String → ℝ)
    (e : Expr K) : (e.relabel f).value ρ = e.value (ρ ∘ f) := by
  rw [value_eq_meaning, meaning_relabel, value_eq_meaning]

/-- Renaming keeps the shape: names that stand for the old ones in their places undo it. -/
theorem relabel_rename (e : Expr α) : ∀ s : Renaming,
    ((rename e).run s).1.variableOccurrences.length = e.variableOccurrences.length ∧
      ∀ f, ((rename e).run s).1.variableOccurrences.map f = e.variableOccurrences →
        ((rename e).run s).1.relabel f = e := by
  induction e with
  | node sym args ih =>
    have hargs : ∀ s : Renaming, (((renameAll args).run s).1.flatMap variableOccurrences).length =
        (args.flatMap variableOccurrences).length ∧
          ∀ f, (((renameAll args).run s).1.flatMap variableOccurrences).map f =
            args.flatMap variableOccurrences →
            ((renameAll args).run s).1.map (relabel f) = args := by
      clear sym
      induction args with
      | nil => exact fun s => ⟨rfl, fun f _ => rfl⟩
      | cons a args iha =>
        intro s
        obtain ⟨hlen, hundo⟩ := ih a (by simp) s
        obtain ⟨hlen', hundo'⟩ :=
          iha (fun b hb => ih b (List.mem_cons_of_mem _ hb)) ((rename a).run s).2
        rw [renameAll_run_cons]
        refine ⟨by simp only [List.flatMap_cons, List.length_append, hlen, hlen'], fun f hf => ?_⟩
        rw [List.flatMap_cons, List.flatMap_cons, List.map_append] at hf
        obtain ⟨h, h'⟩ := List.append_inj hf (by rw [List.length_map, hlen])
        rw [List.map_cons, hundo f h, hundo' f h']
    intro s
    obtain ⟨hlen, hundo⟩ := hargs s
    rcases hname : (node sym []).variableName? with _ | name
    · rw [rename_run_node hname, variableOccurrences_node, variableOccurrences_node, hname]
      simp only [Option.toList_none, List.append_nil]
      exact ⟨hlen, fun f hf => by rw [relabel_node, symbol_relabel_eq_self f hname, hundo f hf]⟩
    · cases sym with
      | var name' weight =>
        rw [rename_run_var, variableOccurrences_node, variableOccurrences_node]
        refine ⟨by simp [variableName?, hlen], fun f hf => ?_⟩
        rw [List.map_append] at hf
        obtain ⟨h, h'⟩ := List.append_inj hf (by rw [List.length_map, hlen])
        rw [relabel_node, hundo f h, Symbol.relabel, (List.cons.inj h').1]
      | _ => cases hname

theorem isPolynomial_rename {K : Type} [NatCast K] {V : Set String} {e : Expr K}
    (h : e.IsPolynomial V) : ∀ s : Renaming, ((rename e).run s).1.IsPolynomial Set.univ := by
  have hargs {args : List (Expr K)}
      (ih : ∀ a ∈ args, ∀ s : Renaming, ((rename a).run s).1.IsPolynomial Set.univ)
      (s : Renaming) : ((renameAll args).run s).1.length = args.length ∧
        ∀ b ∈ ((renameAll args).run s).1, b.IsPolynomial Set.univ := by
    induction args generalizing s with
    | nil => exact ⟨rfl, fun b hb => (List.not_mem_nil hb).elim⟩
    | cons a args iha =>
      obtain ⟨hlen, hall⟩ := iha (fun b hb => ih b (List.mem_cons_of_mem _ hb)) ((rename a).run s).2
      rw [renameAll_run_cons]
      exact ⟨by rw [List.length_cons, List.length_cons, hlen],
        List.forall_mem_cons.2 ⟨ih a (by simp) s, hall⟩⟩
  have hne {args bs : List (Expr K)} (hlen : bs.length = args.length) (hne : args ≠ []) :
      bs ≠ [] := by
    rintro rfl
    exact hne (List.length_eq_zero_iff.1 hlen.symm)
  intro s
  induction h generalizing s with
  | var h => exact .var trivial
  | const c => exact .const c
  | @add args hnil h ih =>
    rw [rename_run_node rfl]
    exact .add (hne (hargs ih s).1 hnil) (hargs ih s).2
  | @sub args hnil h ih =>
    rw [rename_run_node rfl]
    exact .sub (hne (hargs ih s).1 hnil) (hargs ih s).2
  | @mul args hnil h ih =>
    rw [rename_run_node rfl]
    exact .mul (hne (hargs ih s).1 hnil) (hargs ih s).2
  | @square a h ih => exact .square (ih s)
  | @power a n hn h ih => exact .power hn (ih s)

end Expr

/-! ### The occurrence tree of an expression -/

namespace OccurrenceTree

section
variable {α : Type}

/-- The variable that an occurrence stands for. -/
def owner (k : OccurrenceTree α) (name : String) : String :=
  ((k.names.find? fun p => name ∈ p.2).map (·.1)).getD name

theorem named (e : Expr α) :
    ∃ used, Named e.variableNames e.variableOccurrences (of e).tree.variableOccurrences
      ⟨used, (of e).names⟩ :=
  ⟨_, Named.rename e (Named.init e.variableNames)⟩

theorem nodup_variableOccurrences (e : Expr α) : (of e).tree.variableOccurrences.Nodup :=
  (named e).choose_spec.nodup

theorem not_mem_of_mem (e : Expr α) {o : String} (h : o ∈ (of e).tree.variableOccurrences) :
    o ∉ e.variableOccurrences :=
  fun ho => (named e).choose_spec.fresh o h (Expr.mem_variableNames.2 ho)

theorem variableNames_of (e : Expr α) : (of e).variableNames = e.variableNames :=
  (named e).choose_spec.keys

theorem mem_variableNames_of {e : Expr α} {v : String} :
    v ∈ (of e).variableNames ↔ v ∈ e.variableOccurrences := by
  rw [variableNames_of, Expr.mem_variableNames]

theorem occurrenceNames_of (e : Expr α) (v : String) : (of e).occurrenceNames v =
    ((e.variableOccurrences.zip (of e).tree.variableOccurrences).filter (·.1 == v)).map (·.2) :=
  (named e).choose_spec.namesOf v

theorem nodup_occurrenceNames (e : Expr α) (v : String) : ((of e).occurrenceNames v).Nodup := by
  have hsub := (List.filter_sublist (p := fun p : String × String => p.1 == v)
    (l := e.variableOccurrences.zip (of e).tree.variableOccurrences)).map (·.2)
  rw [← occurrenceNames_of, List.map_snd_zip (named e).choose_spec.length.le] at hsub
  exact (nodup_variableOccurrences e).sublist hsub

theorem length_occurrenceNames_of (e : Expr α) (v : String) :
    ((of e).occurrenceNames v).length = e.occurrences v :=
  (named e).choose_spec.length_namesOf v

theorem nodup_keys (e : Expr α) : ((of e).names.map (·.1)).Nodup := by
  rw [(named e).choose_spec.keys]
  exact nodup_eraseDups _

theorem mem_zip_of_mem_names (e : Expr α) {p : String × List String}
    (hp : p ∈ (of e).names) {o : String}
    (ho : o ∈ p.2) : (p.1, o) ∈ e.variableOccurrences.zip (of e).tree.variableOccurrences := by
  have hnames := (named e).choose_spec.namesOf p.1
  rw [namesOf_eq_of_mem (nodup_keys e) hp] at hnames
  rw [hnames, List.mem_map] at ho
  obtain ⟨q, hq, rfl⟩ := ho
  rw [List.mem_filter, beq_iff_eq] at hq
  rw [← hq.2]
  exact hq.1

theorem owner_eq (e : Expr α) {o v : String}
    (h : (v, o) ∈ e.variableOccurrences.zip (of e).tree.variableOccurrences) :
    (of e).owner o = v := by
  have hmem : o ∈ (of e).occurrenceNames v := by
    rw [occurrenceNames_of, List.mem_map]
    exact ⟨(v, o), List.mem_filter.2 ⟨h, beq_self_eq_true v⟩, rfl⟩
  obtain ⟨p, hp, ho⟩ := exists_mem_of_mem_namesOf hmem
  have hsome : ((of e).names.find? fun p => o ∈ p.2).isSome := by
    rw [List.find?_isSome]
    exact ⟨p, hp, decide_eq_true ho⟩
  obtain ⟨q, hq⟩ := Option.isSome_iff_exists.1 hsome
  have hqo : o ∈ q.2 := of_decide_eq_true (List.find?_some hq :)
  rw [owner, hq]
  exact fst_eq_of_mem_zip (nodup_variableOccurrences e)
    (mem_zip_of_mem_names e (List.mem_of_find?_eq_some hq) hqo) h

/-- The owners of the occurrences are the variables of the expression, in the same order. -/
theorem map_owner (e : Expr α) :
    (of e).tree.variableOccurrences.map (of e).owner = e.variableOccurrences := by
  have hlen := (named e).choose_spec.length
  calc (of e).tree.variableOccurrences.map (of e).owner
      = (e.variableOccurrences.zip (of e).tree.variableOccurrences).map fun p =>
      (of e).owner p.2 := by
        conv_lhs => rw [← List.map_snd_zip hlen.le, List.map_map]
        rfl
    _ = (e.variableOccurrences.zip (of e).tree.variableOccurrences).map (·.1) :=
        List.map_congr_left fun p hp => owner_eq e hp
    _ = e.variableOccurrences := List.map_fst_zip hlen.ge

theorem owner_mem (e : Expr α) {o : String} (h : o ∈ (of e).tree.variableOccurrences) :
    (of e).owner o ∈ e.variableOccurrences := by
  rw [← map_owner e]
  exact List.mem_map_of_mem h

theorem owner_of_not_mem (e : Expr α) {o : String} (h : o ∉ (of e).tree.variableOccurrences) :
    (of e).owner o = o := by
  have hnone : (of e).names.find? (fun p => o ∈ p.2) = none := by
    rw [List.find?_eq_none]
    intro p hp ho
    exact h (List.of_mem_zip (mem_zip_of_mem_names e hp (of_decide_eq_true ho))).2
  rw [owner, hnone]
  rfl

/-- The owner of an occurrence is the variable that has it among its names. -/
theorem mem_occurrenceNames (e : Expr α) {o v : String} : o ∈ (of e).occurrenceNames v ↔
    o ∈ (of e).tree.variableOccurrences ∧ (of e).owner o = v := by
  rw [occurrenceNames_of, List.mem_map]
  refine ⟨fun ⟨p, hp, ho⟩ => ?_, fun ⟨ho, hv⟩ => ?_⟩
  · rw [List.mem_filter, beq_iff_eq] at hp
    obtain ⟨hp, rfl⟩ := hp
    rw [← ho]
    exact ⟨(List.of_mem_zip hp).2, owner_eq e hp⟩
  · rw [← List.map_snd_zip (named e).choose_spec.length.le, List.mem_map] at ho
    obtain ⟨p, hp, rfl⟩ := ho
    exact ⟨p, List.mem_filter.2 ⟨hp, by rw [← hv, owner_eq e hp, beq_self_eq_true]⟩, rfl⟩

theorem mem_occurrenceNames_owner {e : Expr α} {o : String}
    (h : o ∈ (of e).tree.variableOccurrences) : o ∈ (of e).occurrenceNames ((of e).owner o) :=
  (mem_occurrenceNames e).2 ⟨h, rfl⟩

/-- With the owners for the occurrences the tree is the expression. -/
theorem relabel_owner (e : Expr α) : (of e).tree.relabel (of e).owner = e :=
  (Expr.relabel_rename e _).2 _ (map_owner e)

end

theorem value_tree_owner {K : Type} [Field K] [Algebra K ℝ] (e : Expr K) (τ : String → ℝ) :
    (of e).tree.value (fun o => τ ((of e).owner o)) = e.value τ := by
  conv_rhs => rw [← relabel_owner e, Expr.value_relabel]
  rfl

end OccurrenceTree

end ModalBounds
