import FlowMerge.Proofs.Matching.OneToOne
import Mathlib.Data.List.Nodup

namespace FlowMerge.Matching

variable {m : Matching} {n o n' o' : NodeId}

def without (m : Matching) (n o : NodeId) : Matching :=
  { m with toOld := m.toOld.erase n, toNew := m.toNew.erase o }

theorem old?_without (m : Matching) (n o n' : NodeId) :
    (m.without n o).old? n' = if n' = n then none else m.old? n' :=
  getElem?_erase_nat m.toOld n n'

theorem new?_without (m : Matching) (n o o' : NodeId) :
    (m.without n o).new? o' = if o' = o then none else m.new? o' :=
  getElem?_erase_nat m.toNew o o'

theorem unlinkNew_eq_without (h : m.old? n = some o) : m.unlinkNew n = m.without n o := by
  rw [unlinkNew, h]
  rfl

theorem unlinkNew_of_free (h : m.old? n = none) : m.unlinkNew n = m := by rw [unlinkNew, h]

theorem unlinkOld_eq_without (h : m.new? o = some n) : m.unlinkOld o = m.without n o := by
  rw [unlinkOld, h]
  rfl

theorem unlinkOld_of_free (h : m.new? o = none) : m.unlinkOld o = m := by rw [unlinkOld, h]

namespace OneToOne

theorem without (h : m.OneToOne) (hno : m.old? n = some o) : (m.without n o).OneToOne := by
  intro n' o'
  rw [old?_without, new?_without]
  by_cases hn : n' = n
  · subst hn
    rw [if_pos rfl]
    refine ⟨nofun, fun ho ↦ ?_⟩
    split at ho
    · cases ho
    · next hne => exact absurd (Option.some_inj.1 (((h n' o').2 ho).symm.trans hno)) hne
  · rw [if_neg hn]
    by_cases ho : o' = o
    · subst ho
      rw [if_pos rfl]
      exact ⟨fun hn' ↦ absurd (h.new_inj hn' hno) hn, nofun⟩
    · rw [if_neg ho]
      exact h n' o'

theorem unlinkNew (h : m.OneToOne) (n : NodeId) : (m.unlinkNew n).OneToOne := by
  cases hn : m.old? n with
  | none => rwa [unlinkNew_of_free hn]
  | some o =>
    rw [unlinkNew_eq_without hn]
    exact h.without hn

theorem unlinkOld (h : m.OneToOne) (o : NodeId) : (m.unlinkOld o).OneToOne := by
  cases ho : m.new? o with
  | none => rwa [unlinkOld_of_free ho]
  | some n =>
    rw [unlinkOld_eq_without ho]
    exact h.without ((h n o).2 ho)

theorem nodup_pairs (h : m.OneToOne) :
    (m.pairs.map Prod.fst).Nodup ∧ (m.pairs.map Prod.snd).Nodup := by
  have hfst : (m.pairs.map Prod.fst).Nodup := by
    rw [pairs, Std.TreeMap.map_fst_toList_eq_keys]
    exact Std.TreeMap.nodup_keys
  refine ⟨hfst, (List.Nodup.of_map _ hfst).map_on ?_⟩
  rintro ⟨n, o⟩ hno ⟨n', o'⟩ hno' rfl
  rw [h.new_inj (mem_pairs.1 hno) (mem_pairs.1 hno')]

end OneToOne

/-- What can be done to a matching. A test is asked once about each pair and a resolver once about
each node, so functions stand for those that remember what they have answered, too. -/
inductive Operation where
  | link (new old : NodeId)
  | unlinkNew (new : NodeId)
  | unlinkOld (old : NodeId)
  | retain (keep : NodeId → NodeId → Bool)
  | propose (new old : NodeId)
  | reduce (resolve : Matching → NodeId → List NodeId → Option NodeId)

def Operation.perform (m : Matching) : Operation → Matching
  | link n o => m.link n o
  | unlinkNew n => m.unlinkNew n
  | unlinkOld o => m.unlinkOld o
  | retain keep => m.retain keep
  | propose n o => m.propose n o
  | reduce resolve => m.reduce resolve

def after (ops : List Operation) : Matching := ops.foldl Operation.perform empty

theorem OneToOne.perform (h : m.OneToOne) (op : Operation) : (op.perform m).OneToOne := by
  cases op with
  | link n o => exact h.link n o
  | unlinkNew n => exact h.unlinkNew n
  | unlinkOld o => exact h.unlinkOld o
  | retain keep => exact h.retain keep
  | propose n o => exact h.of_maps _
  | reduce resolve => exact h.reduce resolve

theorem oneToOne_after (ops : List Operation) : (after ops).OneToOne :=
  List.foldlRecOn ops _ OneToOne.empty fun _ h op _ ↦ h.perform op

theorem after_snoc (ops : List Operation) (op : Operation) :
    after (ops ++ [op]) = op.perform (after ops) := by
  rw [after, List.foldl_append]
  rfl

structure LinkedIn (n o : NodeId) (m l : Matching) : Prop where
  old? : l.old? n = some o
  new? : l.new? o = some n
  others : ∀ n' o', n' ≠ n → o' ≠ o →
    (l.old? n' = some o' ↔ m.old? n' = some o') ∧ (l.new? o' = some n' ↔ m.new? o' = some n')

theorem OneToOne.linkedIn (h : m.OneToOne) (n o : NodeId) : LinkedIn n o m (m.link n o) where
  old? := by rw [old?_link, if_pos rfl]
  new? := by rw [new?_link, if_pos rfl]
  others n' o' hn ho := by
    rw [← h.link n o n' o', ← h n' o', and_self, old?_link, if_neg hn]
    split
    · next hno =>
      refine ⟨nofun, fun hn' ↦ absurd ?_ ho⟩
      exact Option.some_inj.1 (hn'.symm.trans ((h n' o).2 hno))
    · rfl

/-- After any run of operations the two directions tell the same pairs and no node is in two of
them, and one more link ties its nodes and touches no pair but those it takes them from. -/
theorem inverse_after (ops : List Operation) :
    (∀ n o, (after ops).old? n = some o ↔ (after ops).new? o = some n) ∧
    (∀ n n' o, (after ops).old? n = some o → (after ops).old? n' = some o → n = n') ∧
    (∀ o o' n, (after ops).new? o = some n → (after ops).new? o' = some n → o = o') ∧
    ((after ops).pairs.map Prod.fst).Nodup ∧ ((after ops).pairs.map Prod.snd).Nodup ∧
    ∀ n o, LinkedIn n o (after ops) (after (ops ++ [.link n o])) := by
  have h := oneToOne_after ops
  refine ⟨h, fun n n' o ↦ h.new_inj, fun o o' n ↦ h.old_inj, h.nodup_pairs.1, h.nodup_pairs.2,
    fun n o ↦ ?_⟩
  rw [after_snoc]
  exact h.linkedIn n o

/-- A resolver picks a node that is tied already, which frees its partner. -/
theorem inverse_after_eviction :
    let m := after [.link 1 5, .link 3 4, .propose 2 5, .reduce fun _ _ olds ↦ olds.head?]
    m.old? 2 = some 5 ∧ m.new? 5 = some 2 ∧ m.old? 1 ≠ some 5 ∧ m.new? 4 = some 3 := by
  intro m
  obtain ⟨hinverse, hnew, -⟩ := inverse_after
    [.link 1 5, .link 3 4, .propose 2 5, .reduce fun _ _ olds ↦ olds.head?]
  have htied : m.old? 2 = some 5 ∧ m.old? 3 = some 4 := by decide
  refine ⟨htied.1, (hinverse 2 5).1 htied.1, fun h ↦ ?_, (hinverse 3 4).1 htied.2⟩
  exact absurd (hnew 1 2 5 h htied.1) (by decide)

end FlowMerge.Matching
