import Mathlib
import ModalBounds.Expr.Basic

/-!
# Induction on expressions

`Expr.induct` gives a hypothesis for every operand of a node. The functions that walk a list of
operands are the usual list functions, so facts about nodes reduce to facts about one operand.
-/

namespace ModalBounds

deriving instance DecidableEq for Symbol

/-! ### Lists that are related member by member -/

theorem exists_of_forall₂ {β γ : Type} {R : β → γ → Prop} {l : List β} {l' : List γ}
    (h : List.Forall₂ R l l') : ∀ a ∈ l, ∃ b ∈ l', R a b := by
  induction h with
  | nil => simp
  | @cons a b l l' hab h ih =>
    rw [List.forall_mem_cons]
    refine ⟨⟨b, by simp, hab⟩, fun a ha => ?_⟩
    obtain ⟨b, hb, hab⟩ := ih a ha
    exact ⟨b, List.mem_cons_of_mem _ hb, hab⟩

theorem exists_forall₂ {β γ : Type} {R : β → γ → Prop} {l : List β} (h : ∀ a ∈ l, ∃ b, R a b) :
    ∃ l', List.Forall₂ R l l' := by
  induction l with
  | nil => exact ⟨[], .nil⟩
  | cons a l ih =>
    rw [List.forall_mem_cons] at h
    obtain ⟨b, hb⟩ := h.1
    obtain ⟨l', hl'⟩ := ih h.2
    exact ⟨b :: l', .cons hb hl'⟩

theorem map_eq_map_of_forall₂ {β γ δ : Type} {f : β → δ} {g : γ → δ} {l : List β} {l' : List γ}
    (h : List.Forall₂ (fun a b => f a = g b) l l') : l.map f = l'.map g := by
  rwa [← List.forall₂_eq_eq_eq, List.forall₂_map_left_iff, List.forall₂_map_right_iff]

namespace Expr

variable {α : Type}

/-- Induction on an expression, with the hypothesis for each operand of a node. -/
@[elab_as_elim, induction_eliminator]
theorem induct {P : Expr α → Prop} (node : ∀ s args, (∀ a ∈ args, P a) → P (node s args)) :
    ∀ e, P e
  | .node s args => node s args fun a _ => induct node a

theorem sizeAll_eq (args : List (Expr α)) : sizeAll args = (args.map size).sum := by
  induction args with
  | nil => rfl
  | cons a rest ih => simp [sizeAll, ih]

theorem preorderAll_eq (args : List (Expr α)) : preorderAll args = args.flatMap preorder := by
  induction args with
  | nil => rfl
  | cons a rest ih => simp [preorderAll, ih]

theorem mentionsAny_eq (x : String) (args : List (Expr α)) :
    mentionsAny x args = args.any (mentions x) := by
  induction args with
  | nil => rfl
  | cons a rest ih => simp [mentionsAny, ih]

theorem preorder_node (s : Symbol α) (args : List (Expr α)) :
    (node s args).preorder = node s args :: args.flatMap preorder := by
  rw [preorder, preorderAll_eq]

theorem mem_preorder_self (e : Expr α) : e ∈ e.preorder := by
  cases e; simp [preorder_node]

theorem mem_preorder_of_mem {s : Symbol α} {args : List (Expr α)} {a b : Expr α} (ha : a ∈ args)
    (hb : b ∈ a.preorder) : b ∈ (node s args).preorder := by
  rw [preorder_node]
  exact List.mem_cons_of_mem _ (List.mem_flatMap.2 ⟨a, ha, hb⟩)

theorem mem_preorder_trans {e a b : Expr α} (ha : a ∈ e.preorder) (hb : b ∈ a.preorder) :
    b ∈ e.preorder := by
  induction e with
  | node s args ih =>
    rw [preorder_node, List.mem_cons, List.mem_flatMap] at ha
    rcases ha with rfl | ⟨c, hc, ha⟩
    · exact hb
    · exact mem_preorder_of_mem hc (ih c hc ha)

theorem length_preorder (e : Expr α) : e.preorder.length = e.size := by
  induction e with
  | node s args ih =>
    rw [preorder_node, size, sizeAll_eq, List.length_cons, List.length_flatMap,
      List.map_congr_left ih, Nat.add_comm]

theorem size_le_of_mem {args : List (Expr α)} {a : Expr α} (ha : a ∈ args) :
    a.size ≤ sizeAll args := by
  rw [sizeAll_eq]
  exact List.single_le_sum (fun _ _ => Nat.zero_le _) _ (List.mem_map_of_mem ha)

/-! ### Numbers of nodes -/

section
variable {a b e : Expr α} {n first : ℕ}

theorem mem_postorderAll {args : List (Expr α)}
    (h : ∀ e ∈ args, ∀ first,
      (n, a) ∈ e.postorder first ↔ first ≤ n ∧ e.preorder[n - first]? = some a) :
    (n, a) ∈ postorderAll first args ↔
    first ≤ n ∧ (args.flatMap preorder)[n - first]? = some a := by
  induction args generalizing first with
  | nil => simp [postorderAll]
  | cons e args ih =>
    rw [List.forall_mem_cons] at h
    rw [postorderAll, List.mem_append, h.1, ih h.2, List.flatMap_cons, List.getElem?_append,
      length_preorder]
    rcases Nat.lt_or_ge (n - first) e.size with hn | hn
    · rw [if_pos hn, or_iff_left (by omega)]
    · rw [if_neg (by omega), List.getElem?_eq_none (by rwa [length_preorder]), Nat.sub_add_eq]
      have : first + e.size ≤ n ↔ first ≤ n := by
        have := e.length_preorder
        cases e
        rw [preorder_node, List.length_cons] at this
        omega
      simp [this]

theorem mem_postorder :
    (n, a) ∈ e.postorder first ↔ first ≤ n ∧ e.preorder[n - first]? = some a := by
  induction e generalizing first with
  | node s args ih =>
    rw [postorder, List.mem_append, mem_postorderAll fun e he _ => ih e he, preorder_node,
      List.mem_singleton, Prod.mk.injEq]
    rcases Nat.lt_trichotomy n first with hn | rfl | hn
    · simp [show ¬ first + 1 ≤ n by omega, show ¬ first ≤ n by omega, Nat.ne_of_lt hn]
    · simp [eq_comm]
    · rw [show n - first = n - (first + 1) + 1 by omega, List.getElem?_cons_succ]
      simp [Nat.succ_le_of_lt hn, Nat.le_of_lt hn, Nat.ne_of_gt hn]

theorem eq_of_mem_postorder (ha : (n, a) ∈ e.postorder first) (hb : (n, b) ∈ e.postorder first) :
    a = b :=
  Option.some_inj.1 ((mem_postorder.1 ha).2.symm.trans (mem_postorder.1 hb).2)

theorem mem_preorder_of_mem_postorder (h : (n, a) ∈ e.postorder first) : a ∈ e.preorder :=
  List.mem_of_getElem? (mem_postorder.1 h).2

end

/-! ### Variables -/

theorem filterMap_postorderAll {β : Type} (f : Expr α → Option β) (args : List (Expr α))
    (ih : ∀ a ∈ args, ∀ n m, (a.postorder n).filterMap (fun p => f p.2) =
      (a.postorder m).filterMap (fun p => f p.2)) (n : Nat) :
    (postorderAll n args).filterMap (fun p => f p.2) =
      args.flatMap fun a => (a.postorder 0).filterMap fun p => f p.2 := by
  induction args generalizing n with
  | nil => rfl
  | cons a rest h =>
    rw [postorderAll, List.filterMap_append, List.flatMap_cons, ih a (by simp) n 0,
      h (fun b hb => ih b (List.mem_cons_of_mem _ hb))]

theorem filterMap_postorder {β : Type} (f : Expr α → Option β) (e : Expr α) :
    ∀ n m, (e.postorder n).filterMap (fun p => f p.2) =
      (e.postorder m).filterMap (fun p => f p.2) := by
  induction e with
  | node s args ih =>
    intro n m
    simp only [postorder, List.filterMap_append, filterMap_postorderAll f args ih]
    rfl

theorem variableOccurrences_node (s : Symbol α) (args : List (Expr α)) :
    (node s args).variableOccurrences =
      args.flatMap variableOccurrences ++ ((node s []).variableName?).toList := by
  have h := filterMap_postorderAll variableName? args (fun a _ => filterMap_postorder _ a) 1
  show (postorderAll 1 args ++ [(0, node s args)]).filterMap
    (fun p : Nat × Expr α => p.2.variableName?) = _
  rw [List.filterMap_append, h]
  cases s <;> rfl

theorem mentions_iff (x : String) (e : Expr α) : e.mentions x ↔ x ∈ e.variableOccurrences := by
  induction e with
  | node s args ih =>
    have hargs : args.any (mentions x) = true ↔ x ∈ args.flatMap variableOccurrences := by
      simp only [List.any_eq_true, List.mem_flatMap]
      exact exists_congr fun a => and_congr_right fun ha => ih a ha
    rw [mentions, mentionsAny_eq, variableOccurrences_node, List.mem_append, Bool.or_eq_true, hargs,
      or_comm, beq_iff_eq, Option.mem_toList]

theorem mem_variableNames {x : String} {e : Expr α} :
    x ∈ e.variableNames ↔ x ∈ e.variableOccurrences := List.mem_eraseDups

theorem mem_of_two_le_occurrences {x : String} {e : Expr α} (h : 2 ≤ e.occurrences x) :
    x ∈ e.variableOccurrences :=
  List.count_pos_iff.1 (Nat.zero_lt_two.trans_le h)

theorem mem_variableOccurrences_iff {x : String} {e : Expr α} :
    x ∈ e.variableOccurrences ↔ ∃ a ∈ e.preorder, a.variableName? = some x := by
  induction e with
  | node s args ih =>
    rw [variableOccurrences_node, preorder_node, List.mem_append, List.mem_flatMap,
      Option.mem_toList, List.exists_mem_cons_iff, or_comm]
    refine or_congr (by cases s <;> rfl) ⟨fun ⟨a, ha, hx⟩ => ?_, fun ⟨b, hb, hx⟩ => ?_⟩
    · obtain ⟨b, hb, hx⟩ := (ih a ha).1 hx
      exact ⟨b, List.mem_flatMap.2 ⟨a, ha, hb⟩, hx⟩
    · obtain ⟨a, ha, hb⟩ := List.mem_flatMap.1 hb
      exact ⟨a, ha, (ih a ha).2 ⟨b, hb, hx⟩⟩

theorem mem_variableOccurrences_of_mem {s : Symbol α} {args : List (Expr α)} {a : Expr α}
    {x : String} (ha : a ∈ args) (hx : x ∈ a.variableOccurrences) :
    x ∈ (node s args).variableOccurrences := by
  rw [variableOccurrences_node]
  exact List.mem_append_left _ (List.mem_flatMap.2 ⟨a, ha, hx⟩)

/-- The variables below a node are among those of the expression, in their order. -/
theorem sublist_variableOccurrences {e a : Expr α} (ha : a ∈ e.preorder) :
    a.variableOccurrences.Sublist e.variableOccurrences := by
  induction e with
  | node s args ih =>
    rw [preorder_node, List.mem_cons, List.mem_flatMap] at ha
    rcases ha with rfl | ⟨b, hb, ha⟩
    · exact List.Sublist.refl _
    · have hargs : b.variableOccurrences.Sublist (args.flatMap variableOccurrences) :=
        List.sublist_flatten_of_mem (List.mem_map_of_mem hb)
      rw [variableOccurrences_node]
      exact ((ih b hb ha).trans hargs).trans (List.sublist_append_left _ _)

/-! ### Equality -/

section
variable [DecidableEq α]

mutual

def decEq : (a b : Expr α) → Decidable (a = b)
  | .node s as, .node t bs =>
    if hs : s = t then
      match decEqAll as bs with
      | isTrue h => isTrue (by rw [hs, h])
      | isFalse h => isFalse (by rintro ⟨⟩; exact h rfl)
    else isFalse (by rintro ⟨⟩; exact hs rfl)

def decEqAll : (as bs : List (Expr α)) → Decidable (as = bs)
  | [], [] => isTrue rfl
  | [], _ :: _ => isFalse nofun
  | _ :: _, [] => isFalse nofun
  | a :: as, b :: bs =>
    match decEq a b, decEqAll as bs with
    | isTrue h, isTrue h' => isTrue (by rw [h, h'])
    | isFalse h, _ => isFalse (by rintro ⟨⟩; exact h rfl)
    | _, isFalse h => isFalse (by rintro ⟨⟩; exact h rfl)

end

instance : DecidableEq (Expr α) := decEq

end

end Expr

end ModalBounds
