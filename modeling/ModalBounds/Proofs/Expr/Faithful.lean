import Mathlib
import ModalBounds.Proofs.Expr.Occurrence

/-!
# The occurrence tree is the expression under other names

`NumberedAt start vs os i v` fixes the name of an occurrence: the `k`-th of `v` is `v_k`, with the
fewest underscores behind it that tell it from the names `start` and from the names given before.
Naming one occurrence keeps this of all (`Named.numbered_nameOccurrence`), so renaming an expression
does. Together with what is known of distinct names and of owners it says what an occurrence tree is
(`faithful`).
-/

namespace ModalBounds

open Renaming

namespace Renaming

/-- The search stops at a candidate behind candidates that are used. -/
theorem padUnused_eq_padded (used : List String) (limit : ℕ) (name : String) :
    ∃ n, padUnused used limit name = padded name n ∧ ∀ m < n, padded name m ∈ used := by
  induction limit generalizing name with
  | zero => exact ⟨0, rfl, by simp⟩
  | succ limit ih =>
    rw [padUnused]
    split
    · rename_i hused
      obtain ⟨n, heq, hall⟩ := ih (name ++ "_")
      refine ⟨n + 1, heq, fun m hm => ?_⟩
      cases m with
      | zero => exact hused
      | succ m => exact hall m (by omega)
    · exact ⟨0, rfl, by simp⟩

/-- The name that an occurrence of `v` gets if nothing stands against it. -/
def numberedName (vs : List String) (i : ℕ) (v : String) : String :=
  v ++ "_" ++ toString ((vs.take i).count v + 1)

/-- The occurrence of `v` in the `i`-th place got its name by its number, with the fewest
underscores that make it differ from the names `start` and from those given before. -/
def NumberedAt (start vs os : List String) (i : ℕ) (v : String) : Prop :=
  ∃ n, os[i]? = some (padded (numberedName vs i v) n) ∧
    ∀ m < n, padded (numberedName vs i v) m ∈ start ∨ padded (numberedName vs i v) m ∈ os.take i

def Numbered (start vs os : List String) : Prop :=
  ∀ i v, vs[i]? = some v → NumberedAt start vs os i v

variable {start vs os : List String} {s : Renaming} {i : ℕ} {v : String}

theorem NumberedAt.append (h : NumberedAt start vs os i v) (hv : i < vs.length) (ho : i < os.length)
    (ws ps : List String) : NumberedAt start (vs ++ ws) (os ++ ps) i v := by
  have hname : numberedName (vs ++ ws) i v = numberedName vs i v := by
    rw [numberedName, numberedName, List.take_append_of_le_length hv.le]
  obtain ⟨n, heq, hall⟩ := h
  rw [NumberedAt, hname, List.getElem?_append_left ho, List.take_append_of_le_length ho.le]
  exact ⟨n, heq, hall⟩

namespace Named

variable (h : Named start vs os s)

include h

theorem numberedAt_nameOccurrence (v : String) :
    NumberedAt start (vs ++ [v]) (os ++ [((Renaming.nameOccurrence v).run s).1]) vs.length v := by
  have hname : numberedName (vs ++ [v]) vs.length v =
      v ++ "_" ++ toString ((Renaming.namesOf s.names v).length + 1) := by
    rw [numberedName, List.take_left' rfl, h.length_namesOf]
  obtain ⟨n, heq, hall⟩ := padUnused_eq_padded s.used s.used.length
    (v ++ "_" ++ toString ((Renaming.namesOf s.names v).length + 1))
  rw [NumberedAt, hname, ← h.length, List.getElem?_concat_length, List.take_left' rfl]
  exact ⟨n, congrArg some heq, fun m hm => ((h.used _).1 (hall m hm)).symm⟩

theorem numbered_nameOccurrence (hnum : Numbered start vs os) (v : String) :
    Numbered start (vs ++ [v]) (os ++ [((Renaming.nameOccurrence v).run s).1]) := by
  intro i w hw
  have hi : i < (vs ++ [v]).length := (List.getElem?_eq_some_iff.1 hw).1
  rw [List.length_append, List.length_singleton] at hi
  rcases Nat.lt_succ_iff_lt_or_eq.1 hi with hi | rfl
  · rw [List.getElem?_append_left hi] at hw
    exact (hnum i w hw).append hi (h.length ▸ hi) _ _
  · obtain rfl : v = w := by simpa using hw
    exact h.numberedAt_nameOccurrence v

end Named

end Renaming

namespace OccurrenceTree

variable {α : Type}

/-- Among the pairs of a key, a pair has the place that its key has among equal keys. -/
theorem getElem?_filter_zip {vs os : List String} (hlen : os.length = vs.length)
    {i : ℕ} {v : String}
    (hv : vs[i]? = some v) :
    (((vs.zip os).filter (·.1 == v)).map (·.2))[(vs.take i).count v]? = os[i]? := by
  induction vs generalizing os i with
  | nil => simp at hv
  | cons w vs ih =>
    obtain ⟨o, os, rfl⟩ := List.exists_cons_of_length_eq_add_one hlen
    cases i with
    | zero =>
      obtain rfl : w = v := by simpa using hv
      simp
    | succ i =>
      have hrest := ih (Nat.succ.inj hlen) hv
      rw [List.take_succ_cons, List.zip_cons_cons]
      by_cases hw : w = v
      · subst hw
        simpa using hrest
      · simpa [hw] using hrest

theorem numbered (e : Expr α) :
    Numbered e.variableNames e.variableOccurrences (of e).tree.variableOccurrences := by
  have hinit : Named e.variableNames [] [] ⟨e.variableNames, []⟩ ∧ Numbered e.variableNames [] [] :=
    ⟨Named.init e.variableNames, by simp [Numbered]⟩
  exact (rename_keeps
    (P := fun vs os s => Named e.variableNames vs os s ∧ Numbered e.variableNames vs os)
    (fun v h => ⟨h.1.nameOccurrence v, h.1.numbered_nameOccurrence h.2 v⟩) e hinit).2

/-- The occurrence tree is the expression with other names, node by node: names that are distinct
and new, listed under their variables in the order of the occurrences, and numbered in that
order. -/
theorem faithful (e : Expr α) :
    (of e).tree.relabel (of e).owner = e ∧
    ((of e).tree.postorder 0).map (fun p => (p.1, p.2.relabel (of e).owner)) = e.postorder 0 ∧
    (of e).tree.variableOccurrences.Nodup ∧
    (of e).tree.variableOccurrences.Disjoint e.variableOccurrences ∧
    (∀ v o, o ∈ (of e).occurrenceNames v ↔
      o ∈ (of e).tree.variableOccurrences ∧ (of e).owner o = v) ∧
    (∀ v, ((of e).occurrenceNames v).length = e.occurrences v) ∧
    (of e).variableNames = e.variableNames ∧
    ∀ i v, e.variableOccurrences[i]? = some v →
      (of e).tree.variableOccurrences[i]? =
        ((of e).occurrenceNames v)[(e.variableOccurrences.take i).count v]? ∧
      NumberedAt e.variableNames e.variableOccurrences (of e).tree.variableOccurrences i v := by
  refine ⟨relabel_owner e, ?_, nodup_variableOccurrences e, fun o ho => not_mem_of_mem e ho,
    fun v o => mem_occurrenceNames e, length_occurrenceNames_of e, variableNames_of e,
    fun i v hv => ⟨?_, numbered e i v hv⟩⟩
  · rw [← Expr.postorder_relabel, relabel_owner]
  · rw [occurrenceNames_of, getElem?_filter_zip (named e).choose_spec.length hv]

end OccurrenceTree

/-- The model `x + x_1 + x + x_1_`, whose variables look like names of occurrences. -/
def likeOccurrences : Expr ℚ :=
  .node .add [.ofVariable "x", .ofVariable "x_1", .ofVariable "x", .ofVariable "x_1_"]

/-- Two underscores are appended for the first `x`, and none for the second. -/
theorem faithful_likeOccurrences :
    (OccurrenceTree.of likeOccurrences).tree.variableOccurrences =
      ["x_1__", "x_1_1", "x_2", "x_1__1"] ∧
    (OccurrenceTree.of likeOccurrences).tree.variableOccurrences[2]? =
      ((OccurrenceTree.of likeOccurrences).occurrenceNames "x")[1]? ∧
    NumberedAt ["x", "x_1", "x_1_"] ["x", "x_1", "x", "x_1_"]
      ["x_1__", "x_1_1", "x_2", "x_1__1"] 2 "x" := by
  have hvars : likeOccurrences.variableOccurrences = ["x", "x_1", "x", "x_1_"] := by decide +kernel
  have hnames : likeOccurrences.variableNames = ["x", "x_1", "x_1_"] := by decide +kernel
  have htree : (OccurrenceTree.of likeOccurrences).tree.variableOccurrences =
      ["x_1__", "x_1_1", "x_2", "x_1__1"] := by decide +kernel
  have h := (OccurrenceTree.faithful likeOccurrences).2.2.2.2.2.2.2 2 "x" (by rw [hvars]; rfl)
  rw [hvars, hnames, htree] at h
  exact ⟨htree, htree ▸ h.1, h.2⟩

end ModalBounds
