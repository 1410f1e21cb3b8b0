import FlowMerge.Proofs.Assignment.Optimal
import FlowMerge.Proofs.Matching.Itself

namespace FlowMerge

namespace Matching

open Score FlowMerge.Tree

section Yields

variable {α β γ : Type} {holds : NodeId → NodeId → α → Prop} {o n : NodeId} {v : β}
  {P : β → Prop} {Q : γ → Prop}

def Known (holds : NodeId → NodeId → α → Prop) (memo : Memo α) : Prop :=
  ∀ o n c, memo[(o, n)]? = some c → holds o n c

/-- Whether a computation ends in a right value whatever is known, and adds nothing wrong. -/
def Yields (holds : NodeId → NodeId → α → Prop) (x : StateT (Memo α) Option β) (P : β → Prop) :
    Prop :=
  ∀ memo, Known holds memo → ∃ v memo', x.run memo = some (v, memo') ∧ P v ∧ Known holds memo'

theorem known_empty : Known holds {} := by
  intro o n c hc
  simp at hc

theorem Known.insert {memo : Memo α} (h : Known holds memo) {c : α} (hc : holds o n c) :
    Known holds (memo.insert (o, n) c) := by
  intro o' n' c' hc'
  rw [Std.HashMap.getElem?_insert] at hc'
  split at hc'
  · next he =>
    obtain ⟨rfl, rfl⟩ := Prod.mk.inj (beq_iff_eq.1 he)
    exact Option.some_inj.1 hc' ▸ hc
  · exact h o' n' c' hc'

namespace Yields

theorem pure (h : P v) : Yields holds (pure v) P := fun memo hm ↦ ⟨v, memo, rfl, h, hm⟩

theorem lift {x : Option β} (hx : x = some v) (h : P v) : Yields holds (StateT.lift x) P :=
  fun memo hm ↦ ⟨v, memo, by rw [hx]; rfl, h, hm⟩

theorem bind {x : StateT (Memo α) Option β} {f : β → StateT (Memo α) Option γ}
    (hx : Yields holds x P) (hf : ∀ v, P v → Yields holds (f v) Q) : Yields holds (x >>= f) Q := by
  intro memo hm
  obtain ⟨v, memo', hv, hP, hm'⟩ := hx memo hm
  obtain ⟨w, memo'', hw, hQ, hm''⟩ := hf v hP memo' hm'
  exact ⟨w, memo'', by rw [StateT.run_bind, hv]; exact hw, hQ, hm''⟩

theorem mapM {f : β → StateT (Memo α) Option γ} {R : β → γ → Prop} {l : List β}
    (h : ∀ a ∈ l, Yields holds (f a) (R a)) : Yields holds (l.mapM f) (List.Forall₂ R l) := by
  induction l with
  | nil => exact .pure .nil
  | cons a l ih =>
    rw [List.mapM_cons]
    apply (h a List.mem_cons_self).bind
    intro v hv
    apply (ih fun b hb ↦ h b (List.mem_cons_of_mem _ hb)).bind
    intro vs hvs
    exact .pure (.cons hv hvs)

theorem store {c : α} (h : holds o n c) : Yields holds (do
    modify fun memo ↦ memo.insert (o, n) c
    Pure.pure c) (holds o n) := fun _ hm ↦ ⟨c, _, rfl, h, hm.insert h⟩

theorem lookUp {x : StateT (Memo α) Option α} (hx : Yields holds x (holds o n)) :
    Yields holds (do
      match (← get)[(o, n)]? with
      | some c => Pure.pure c
      | none => x) (holds o n) := by
  intro memo hm
  rw [StateT.run_bind, StateT.run_get, pure_bind]
  dsimp only
  cases hc : memo[(o, n)]? with
  | none => exact hx memo hm
  | some c => exact ⟨c, memo, rfl, hm o n c hc, hm⟩

end Yields

end Yields

/-- Whether a computation gives a value, with no costs in its table but those of a function. -/
def Gives {α β : Type} (cost : NodeId → NodeId → α) (x : StateT (Memo α) Option β) (v : β) : Prop :=
  Yields (fun o n c ↦ c = cost o n) x (· = v)

theorem Gives.exists_run {α β : Type} {cost : NodeId → NodeId → α}
    {x : StateT (Memo α) Option β} {v : β} (h : Gives cost x v) :
    ∃ memo, x.run {} = some (v, memo) := by
  obtain ⟨v, memo, hrun, rfl, -⟩ := h {} known_empty
  exact ⟨memo, hrun⟩

section Table

variable {α : Type} [Score α] {f g : NodeId → NodeId → α} {olds news : List NodeId}

def table (cost : NodeId → NodeId → α) (olds news : List NodeId) : CostMatrix α :=
  (List.range (max olds.length news.length)).map fun i ↦
    (List.range (max olds.length news.length)).map fun j ↦
      Id.run (cell cost olds[i]? news[j]?)

theorem cell_congr {m : Type → Type} [Monad m] {f g : NodeId → NodeId → m α}
    (h : ∀ o ∈ olds, ∀ n ∈ news, f o n = g o n) (i j : Nat) :
    cell f olds[i]? news[j]? = cell g olds[i]? news[j]? := by
  cases hi : olds[i]? <;> cases hj : news[j]?
  case some.some => exact h _ (List.mem_of_getElem? hi) _ (List.mem_of_getElem? hj)
  all_goals rfl

theorem padded_congr {m : Type → Type} [Monad m] {f g : NodeId → NodeId → m α}
    (h : ∀ o ∈ olds, ∀ n ∈ news, f o n = g o n) : padded f olds news = padded g olds news := by
  simp only [padded, cell_congr h]

theorem table_congr (h : ∀ o ∈ olds, ∀ n ∈ news, f o n = g o n) :
    table f olds news = table g olds news := by
  simp only [table, cell_congr (m := Id) h]

theorem mapM_eq_some {β γ : Type} {f : β → Option γ} {g : β → γ} (h : ∀ a, f a = some (g a))
    (l : List β) : l.mapM f = some (l.map g) := by
  rw [funext h]
  exact List.mapM_pure

/-- Where all pairs have a cost, the table of them is made. -/
theorem padded_eq_some {x : NodeId → NodeId → Option α}
    (h : ∀ o ∈ olds, ∀ n ∈ news, x o n = some (f o n)) :
    padded x olds news = some (table f olds news) := by
  have hcell (i j : Nat) :
      cell x olds[i]? news[j]? = some (Id.run (cell f olds[i]? news[j]?)) := by
    cases hi : olds[i]? <;> cases hj : news[j]?
    case some.some => exact h _ (List.mem_of_getElem? hi) _ (List.mem_of_getElem? hj)
    all_goals rfl
  exact mapM_eq_some (fun i ↦ mapM_eq_some (hcell i) _) _

theorem yields_padded {holds : NodeId → NodeId → α → Prop}
    {R : Option NodeId → Option NodeId → α → Prop} {x : NodeId → NodeId → StateT (Memo α) Option α}
    (olds news : List NodeId)
    (hpair : ∀ o ∈ olds, ∀ n ∈ news, Yields holds (x o n) (R (some o) (some n)))
    (hempty : R none none zero) (hold : ∀ o, R (some o) none one)
    (hnew : ∀ n, R none (some n) one) :
    Yields holds (padded x olds news) (List.Forall₂ (fun i ↦ List.Forall₂
      (fun j ↦ R olds[i]? news[j]?) (List.range (max olds.length news.length)))
        (List.range (max olds.length news.length))) := by
  refine .mapM fun i _ ↦ .mapM fun j _ ↦ ?_
  cases hi : olds[i]? <;> cases hj : news[j]?
  case none.none => exact .pure hempty
  case none.some => exact .pure (hnew _)
  case some.none => exact .pure (hold _)
  case some.some => exact hpair _ (List.mem_of_getElem? hi) _ (List.mem_of_getElem? hj)

theorem eq_map_of_forall₂ {β γ : Type} {g : β → γ} {l : List β} {vs : List γ}
    (h : List.Forall₂ (fun a v ↦ v = g a) l vs) : vs = l.map g := by
  have hsame := List.forall₂_map_left_iff.2 (h.imp fun _ _ ↦ Eq.symm)
  rw [List.forall₂_eq_eq_eq] at hsame
  exact hsame.symm

theorem gives_padded {cost : NodeId → NodeId → α}
    {x : NodeId → NodeId → StateT (Memo α) Option α}
    (h : ∀ o ∈ olds, ∀ n ∈ news, Gives cost (x o n) (g o n)) :
    Gives cost (padded x olds news) (table g olds news) := by
  intro memo hm
  obtain ⟨children, memo', hrun, hrows, hm'⟩ := yields_padded olds news
    (R := fun o n v ↦ v = Id.run (cell g o n)) h rfl (fun _ ↦ rfl) (fun _ ↦ rfl) memo hm
  exact ⟨children, memo', hrun, eq_map_of_forall₂ (hrows.imp fun _ _ ↦ eq_map_of_forall₂), hm'⟩

theorem length_table : (table f olds news).length = max olds.length news.length := by
  simp [table]

theorem entry_table (i j : Nat) : (table f olds news).entry i j =
    if i < max olds.length news.length ∧ j < max olds.length news.length then
      Id.run (cell f olds[i]? news[j]?)
    else zero := by
  by_cases hi : i < max olds.length news.length
  · by_cases hj : j < max olds.length news.length <;> simp [table, CostMatrix.entry, hi, hj]
  · simp [table, CostMatrix.entry, hi]

end Table

section Memo

variable {α : Type} [Score α] {compare : Comparator α} {old new : Tree} {o n : NodeId}
  {fuel fuel' : Nat}

theorem blend_eq {children : CostMatrix α} {columns : List Nat}
    (h : Assignment.solve children = some columns) (own : α) :
    let b := ratio 7 10 * capped (Assignment.total children columns / ratio children.length 1) +
      ratio 3 10 * own
    blend children own = some (b * b) := by
  rw [blend, h]
  rfl

theorem pairCost_succ {f : NodeId → NodeId → α} (fuel : Nat)
    (hf : ∀ o' ∈ old.controlFlowChildren o, ∀ n' ∈ new.controlFlowChildren n,
      pairCost compare old new fuel o' n' = some (f o' n')) :
    pairCost compare old new (fuel + 1) o n =
      if (old.controlFlowChildren o).isEmpty && (new.controlFlowChildren n).isEmpty then
        some (compare old o new n)
      else blend (table f (old.controlFlowChildren o) (new.controlFlowChildren n))
        (compare old o new n) := by
  rw [pairCost]
  simp only [padded_eq_some hf]
  rfl

/-- Where no number reaches infinity all pairs have a cost. -/
theorem exists_costs [NeverInfinite α] (compare : Comparator α) (old new : Tree) (fuel : Nat) :
    ∃ f : NodeId → NodeId → α, ∀ o n, pairCost compare old new fuel o n = some (f o n) := by
  induction fuel with
  | zero => exact ⟨fun o n ↦ compare old o new n, fun _ _ ↦ rfl⟩
  | succ fuel ih =>
    obtain ⟨f, hf⟩ := ih
    have hcost (o n : NodeId) : ∃ c, pairCost compare old new (fuel + 1) o n = some c := by
      rw [pairCost_succ fuel fun _ _ _ _ ↦ hf _ _]
      split
      · exact ⟨_, rfl⟩
      · obtain ⟨columns, hsolve⟩ := Assignment.exists_solve
          (table f (old.controlFlowChildren o) (new.controlFlowChildren n))
        exact ⟨_, blend_eq hsolve _⟩
    choose g hg using hcost
    exact ⟨g, hg⟩

theorem yields_pairCostMemo [NeverInfinite α] (compare : Comparator α) (old new : Tree) (fuel : Nat)
    (o n : NodeId) : Yields (fun _ _ _ ↦ True) (pairCostMemo compare old new fuel o n)
      fun _ ↦ True := by
  induction fuel generalizing o n with
  | zero => exact .pure trivial
  | succ fuel ih =>
    rw [pairCostMemo]
    apply Yields.lookUp
    dsimp only
    split
    · rw [pure_bind]
      exact .store trivial
    · apply (yields_padded (R := fun _ _ _ ↦ True) _ _ (fun o _ n _ ↦ ih o n) trivial
        (fun _ ↦ trivial) fun _ ↦ trivial).bind
      intro children _
      obtain ⟨columns, hsolve⟩ := Assignment.exists_solve children
      apply (Yields.lift (P := fun _ ↦ True) (blend_eq hsolve _) trivial).bind
      exact fun c _ ↦ .store trivial

variable (w : old.WellFormed) (ho : o < old.size)
include w ho

/-- Fuel for the levels that may lie below a node is enough. -/
theorem pairCost_eq (hf : old.size ≤ fuel + old.depth o) (hf' : old.size ≤ fuel' + old.depth o) :
    pairCost compare old new fuel o n = pairCost compare old new fuel' o n := by
  have hdepth := w.depth_lt ho
  induction fuel generalizing fuel' o n with
  | zero => omega
  | succ fuel ih =>
    obtain ⟨fuel', rfl⟩ := Nat.exists_eq_succ_of_ne_zero (show fuel' ≠ 0 by omega)
    rw [pairCost, pairCost, padded_congr fun c hc n' _ ↦ ?_]
    have hc := (List.mem_filter.1 hc).1
    have hd := w.depth_of_parent (w.mem_children.1 hc)
    exact ih (w.child_lt hc) (by omega) (by omega) (w.depth_lt (w.child_lt hc))

/-- What has been found before changes no cost. -/
theorem gives_pairCostMemo {cost : NodeId → NodeId → α}
    (hcost : ∀ o n, pairCost compare old new (old.size + 1) o n = some (cost o n))
    (hf : old.size ≤ fuel + old.depth o) :
    Gives cost (pairCostMemo compare old new fuel o n) (cost o n) := by
  have hdepth := w.depth_lt ho
  induction fuel generalizing o n with
  | zero => omega
  | succ fuel ih =>
    have hchild : ∀ c ∈ old.controlFlowChildren o,
        c < old.size ∧ old.depth c = old.depth o + 1 := by
      intro c hc
      have hc := (List.mem_filter.1 hc).1
      exact ⟨w.child_lt hc, w.depth_of_parent (w.mem_children.1 hc)⟩
    -- less fuel is enough for the children
    have hown := hcost o n
    rw [pairCost_succ (f := cost) old.size fun c hc n' _ ↦
      (pairCost_eq w (hchild c hc).1 (by omega) (by omega)).trans (hcost c n')] at hown
    rw [pairCostMemo]
    apply Yields.lookUp
    dsimp only
    split
    · next hleaf =>
      rw [if_pos hleaf, Option.some_inj] at hown
      rw [pure_bind]
      exact .store hown
    · next hleaf =>
      rw [if_neg hleaf] at hown
      have hrest : Gives cost (padded (pairCostMemo compare old new fuel)
          (old.controlFlowChildren o) (new.controlFlowChildren n))
          (table cost (old.controlFlowChildren o) (new.controlFlowChildren n)) := by
        refine gives_padded fun c hc n' _ ↦ ?_
        obtain ⟨hlt, hdepth⟩ := hchild c hc
        exact ih hlt (by omega) (w.depth_lt hlt)
      apply Yields.bind hrest
      rintro _ rfl
      apply (Yields.lift hown rfl).bind
      rintro _ rfl
      exact .store rfl

end Memo

theorem exact_eq {α : Type} [Score α] {compare : Comparator α} {thresholds : Thresholds α}
    {old new : Tree} {m : Matching} {costs : CostMatrix α} {memo : Memo α} {columns : List Nat}
    (hcosts : (padded (pairCostMemo compare old new (old.size + 1))
      (freeNodes old m.linkRoots.hasOld) (freeNodes new m.linkRoots.hasNew)).run {} =
        some (costs, memo))
    (hsolve : Assignment.solve costs = some columns) :
    exact compare thresholds old new m = some ((columns.zipIdx.foldl (linkAssigned thresholds.leaf
      costs (freeNodes old m.linkRoots.hasOld) (freeNodes new m.linkRoots.hasNew))
        m.linkRoots).propagate old new) := by
  rw [exact]
  dsimp only
  rw [hcosts]
  dsimp only [Option.bind_eq_bind, Option.bind_some]
  rw [hsolve]
  rfl

theorem exists_exact {α : Type} [Score α] [NeverInfinite α] (compare : Comparator α)
    (thresholds : Thresholds α) (old new : Tree) (m : Matching) :
    ∃ m', exact compare thresholds old new m = some m' := by
  obtain ⟨costs, memo, hrun, -⟩ := yields_padded (R := fun _ _ _ ↦ True)
    (freeNodes old m.linkRoots.hasOld) (freeNodes new m.linkRoots.hasNew)
    (fun o _ n _ ↦ yields_pairCostMemo compare old new (old.size + 1) o n) trivial
    (fun _ ↦ trivial) (fun _ ↦ trivial) {} known_empty
  obtain ⟨columns, hsolve⟩ := Assignment.exists_solve costs
  exact ⟨_, exact_eq hrun hsolve⟩

section Self

variable {compare : Comparator Rat} {old new t : Tree} {f : NodeId → NodeId → Rat}
  {olds news : List NodeId} {m : CostMatrix Rat}

theorem entry_table_nonneg (h : ∀ o n, 0 ≤ f o n) (i j : Nat) :
    0 ≤ (table f olds news).entry i j := by
  have hcell (o n : Option NodeId) : 0 ≤ Id.run (cell f o n) := by
    cases o <;> cases n
    case some.some o n => exact h o n
    all_goals exact nonneg_iff.1 (Lawful.nonneg_ratio Nat.one_pos)
  rw [entry_table]
  split
  · exact hcell _ _
  · exact nonneg_iff.1 nonneg_zero

theorem entry_table_self (h : ∀ o ∈ olds, f o o = 0) {i : Nat} (hi : i < olds.length) :
    (table f olds olds).entry i i = 0 := by
  rw [entry_table, Nat.max_self, if_pos ⟨hi, hi⟩, List.getElem?_eq_getElem hi]
  exact h _ (List.getElem_mem hi)

theorem solve_table_self (hnonneg : ∀ o n, 0 ≤ f o n) (h : ∀ o ∈ olds, f o o = 0) :
    Assignment.solve (table f olds olds) = some (List.range olds.length) := by
  have hlen : (table f olds olds).length = olds.length := by rw [length_table, Nat.max_self]
  rw [Assignment.solve_eq_range (entry_table_nonneg hnonneg) fun i hi ↦
    entry_table_self h (hlen ▸ hi), hlen]

theorem blend_eq_zero {columns : List Nat} (hsolve : Assignment.solve m = some columns)
    (h : Assignment.total m columns = 0) : blend m 0 = some 0 := by
  rw [blend_eq hsolve, h]
  simp [capped, lt, one, ratio]

theorem mem_zipIdx_range {k i j : Nat} : (j, i) ∈ (List.range k).zipIdx ↔ i < k ∧ j = i := by
  rw [List.mk_mem_zipIdx_iff_getElem?, List.getElem?_eq_some_iff]
  simp [eq_comm]

theorem pairCost_nonneg (h : ∀ o n, 0 ≤ compare old o new n) {fuel : Nat} {o n : NodeId} {c : Rat}
    (hc : pairCost compare old new fuel o n = some c) : 0 ≤ c := by
  cases fuel with
  | zero => exact Option.some_inj.1 hc ▸ h o n
  | succ fuel =>
    obtain ⟨f, hf⟩ := exists_costs compare old new fuel
    rw [pairCost_succ fuel fun _ _ _ _ ↦ hf _ _] at hc
    split at hc
    · exact Option.some_inj.1 hc ▸ h o n
    · obtain ⟨columns, -, hc⟩ := Option.bind_eq_some_iff.1 hc
      exact Option.some_inj.1 hc ▸ mul_self_nonneg _

/-- A node costs nothing for itself, since its children can stay where they are. -/
theorem pairCost_self (hnonneg : ∀ o n, 0 ≤ compare t o t n) (hself : ∀ n, compare t n t n = 0)
    (fuel : Nat) (n : NodeId) : pairCost compare t t fuel n n = some 0 := by
  induction fuel generalizing n with
  | zero => exact congrArg some (hself n)
  | succ fuel ih =>
    obtain ⟨f, hf⟩ := exists_costs compare t t fuel
    have hdiag (o : NodeId) : f o o = 0 := Option.some_inj.1 ((hf o o).symm.trans (ih o))
    rw [pairCost_succ fuel fun _ _ _ _ ↦ hf _ _, hself]
    split
    · rfl
    · refine blend_eq_zero (solve_table_self (fun o n ↦ pairCost_nonneg hnonneg (hf o n))
        fun o _ ↦ hdiag o) ?_
      rw [Assignment.total, Assignment.sum_eq]
      apply List.sum_eq_zero
      intro x hx
      obtain ⟨⟨j, i⟩, hji, rfl⟩ := List.mem_map.1 hx
      obtain ⟨hi, rfl⟩ := mem_zipIdx_range.1 hji
      exact entry_table_self (fun o _ ↦ hdiag o) hi

theorem SelfTied.foldl_linkAssigned {m : Matching} {threshold : Rat} {costs : CostMatrix Rat}
    (hm : m.SelfTied) (hpos : 0 < threshold)
    (hdiag : ∀ i < olds.length, costs.entry i i = 0) :
    ((List.range olds.length).zipIdx.foldl (linkAssigned threshold costs olds olds) m).SelfTied ∧
      ∀ x, ((List.range olds.length).zipIdx.foldl (linkAssigned threshold costs olds olds)
        m).hasNew x = true ↔ m.hasNew x = true ∨ x ∈ olds := by
  obtain ⟨htied, hnew⟩ : ((List.range olds.length).zipIdx.foldl (linkAssigned threshold costs olds
      olds) m).SelfTied ∧ ∀ x, ((List.range olds.length).zipIdx.foldl (linkAssigned threshold costs
        olds olds) m).hasNew x = true ↔ m.hasNew x = true ∨
          ∃ i, (i, i) ∈ (List.range olds.length).zipIdx ∧ olds[i]? = some x := by
    refine foldl_induction (P := fun pre (m' : Matching) ↦ m'.SelfTied ∧ ∀ x, m'.hasNew x = true ↔
      m.hasNew x = true ∨ ∃ i, (i, i) ∈ pre ∧ olds[i]? = some x) ⟨hm, by simp⟩ ?_
    rintro pre ⟨j, i⟩ post m' hsplit ⟨htied, hnew⟩
    obtain ⟨hi, rfl⟩ := mem_zipIdx_range.1 (hsplit ▸ List.mem_append_right _ List.mem_cons_self)
    have hlink : linkAssigned threshold costs olds olds m' (j, j) = m'.link olds[j] olds[j] := by
      have hlt : lt (costs.entry j j) threshold = true := by
        rw [hdiag j hi]
        exact decide_eq_true hpos
      simp [linkAssigned, List.getElem?_eq_getElem hi, hlt]
    rw [hlink]
    refine ⟨htied.link _, fun x ↦ ?_⟩
    rw [htied.hasNew_link, hnew]
    simp only [List.mem_append, List.mem_singleton, Prod.mk.injEq, and_self, or_and_right,
      exists_or, exists_eq_left, List.getElem?_eq_getElem hi, Option.some_inj, eq_comm (a := x)]
    rw [or_comm, or_assoc]
  refine ⟨htied, fun x ↦ (hnew x).trans (or_congr_right ?_)⟩
  rw [List.mem_iff_getElem?]
  refine exists_congr fun i ↦ and_iff_right_of_imp fun hx ↦ ?_
  exact mem_zipIdx_range.2 ⟨(List.getElem?_eq_some_iff.1 hx).1, rfl⟩

theorem exact_self {thresholds : Thresholds Rat} (hp : t.IsProcess) (hleaf : 0 < thresholds.leaf) :
    ∃ m, exact Comparator.process thresholds t t .empty = some m ∧
      ∀ x ∈ t.live, m.old? x = some x := by
  have w := hp.wellFormed
  have hstart : (linkRoots .empty).SelfTied := SelfTied.empty.link root
  have hnonneg (o n : NodeId) : (0 : Rat) ≤ Comparator.process t o t n :=
    nonneg_iff.1 Comparator.nonneg_process
  have hself (n : NodeId) : (Comparator.process t n t n : Rat) = 0 :=
    (Comparator.process_self (.refl t)).trans zero_eq
  have hold : freeNodes t (linkRoots .empty).hasOld = freeNodes t (linkRoots .empty).hasNew :=
    congrArg _ (funext fun x ↦ hstart.hasOld)
  have hmem (x : NodeId) : x ∈ freeNodes t (linkRoots .empty).hasNew ↔
      x ∈ t.live ∧ x ≠ root ∧ t.isControlFlow x = true := by
    rw [freeNodes, List.mem_filter]
    by_cases hr : x = root
    · simp [hr]
    · have hfree : (linkRoots .empty).hasNew x = false := by
        rw [Bool.eq_false_iff, Ne, linkRoots, SelfTied.empty.hasNew_link, hasNew_empty]
        simp [hr]
      simp [hr, hfree]
  -- the costs that are looked up are those of the recursion, with zeros on the diagonal
  obtain ⟨cost, hcost⟩ := exists_costs (α := Rat) Comparator.process t t (t.size + 1)
  have hdiag (o : NodeId) : cost o o = 0 :=
    Option.some_inj.1 ((hcost o o).symm.trans (pairCost_self hnonneg hself _ o))
  have hgives : Gives cost (padded (pairCostMemo Comparator.process t t (t.size + 1))
      (freeNodes t (linkRoots .empty).hasOld) (freeNodes t (linkRoots .empty).hasNew))
      (table cost (freeNodes t (linkRoots .empty).hasOld)
        (freeNodes t (linkRoots .empty).hasNew)) := by
    refine gives_padded fun o ho n _ ↦ gives_pairCostMemo w ?_ hcost (by omega)
    exact w.live_lt ((hmem o).1 (hold ▸ ho)).1
  obtain ⟨memo, hrun⟩ := hgives.exists_run
  have hcost0 (o n : NodeId) : 0 ≤ cost o n := pairCost_nonneg hnonneg (hcost o n)
  have hsolve : Assignment.solve (table cost (freeNodes t (linkRoots .empty).hasNew)
      (freeNodes t (linkRoots .empty).hasNew)) =
        some (List.range (freeNodes t (linkRoots .empty).hasNew).length) :=
    solve_table_self hcost0 fun o _ ↦ hdiag o
  refine ⟨_, exact_eq hrun (hold ▸ hsolve), ?_⟩
  obtain ⟨htied, hnew⟩ := hstart.foldl_linkAssigned hleaf fun i hi ↦
    entry_table_self (fun o _ ↦ hdiag o) hi
  rw [hold]
  refine TiesControlFlow.propagate hp ⟨htied, fun x ↦ ?_⟩
  rw [hnew, hmem, linkRoots, SelfTied.empty.hasNew_link, hasNew_empty]
  by_cases hr : x = root
  · subst hr
    simp [w.root_mem_live, hp.root]
  · simp [hr]

end Self

end Matching

end FlowMerge
