import FlowMerge.Proofs.Script.Filling
import FlowMerge.Proofs.Script.Numbering

namespace FlowMerge.Script

open FlowMerge.Tree
open Merge (base?)

variable {t d d' : Tree} {s : Script} {c : Change} {node q x : NodeId} {out ids : List NodeId}
  {steps : List Step} {n i k : Nat} {first : NodeId → Content}

theorem moveTargets_cons (s : Step) (steps : List Step) :
    moveTargets (s :: steps) = moveTargets [s] ++ moveTargets steps := by
  rw [← List.singleton_append, moveTargets, List.filterMap_append]
  rfl

theorem moveTargets_of_move {s : Step} (hk : s.1.kind = .move) (hs : s.2 = some node) :
    moveTargets [s] = [node] := by
  rw [moveTargets, List.filterMap_cons_some (by rw [if_pos hk, hs]), List.filterMap_nil]

theorem moveTargets_of_not {s : Step} (h : ¬ (s.1.kind = .move ∧ ∃ node, s.2 = some node)) :
    moveTargets [s] = [] := by
  refine List.filterMap_cons_none ?_
  split
  · next hk =>
    by_contra hne
    exact h ⟨hk, Option.ne_none_iff_exists'.1 hne⟩
  · rfl

theorem applyMove_ok {s : Step} {z : Tree × Nat} (h : applyMove (d, k) s = .ok z) :
    (moveTargets [s] = [] ∧ z = (d, k)) ∨ ∃ node parent, moveTargets [s] = [node] ∧
      d.parent? node = some parent ∧ z = (detachMoved d (k + 1) node parent, k + 1) := by
  by_cases hs : s.1.kind = .move ∧ ∃ node, s.2 = some node
  · obtain ⟨hk, node, hnode⟩ := hs
    simp only [applyMove, hk, hnode] at h
    split at h
    · cases h
    · next parent hp => exact .inr ⟨node, parent, moveTargets_of_move hk hnode, hp,
        (Except.ok.inj h).symm⟩
  · rw [applyMove] at h
    split at h
    · next hk hnode => exact absurd ⟨hk, _, hnode⟩ hs
    · exact .inl ⟨moveTargets_of_not hs, (Except.ok.inj h).symm⟩

theorem deletionTargets_cons (s : Step) (steps : List Step) :
    deletionTargets (s :: steps) = deletionTargets [s] ++ deletionTargets steps := by
  rw [← List.singleton_append, deletionTargets, List.filterMap_append]
  rfl

theorem applyDeletion_ok {s : Step} (h : applyDeletion d s = .ok d') :
    (deletionTargets [s] = [] ∧ d' = d) ∨ ∃ node parent, deletionTargets [s] = [node] ∧
      d.parent? node = some parent ∧ d' = deleteAt d node parent := by
  rw [applyDeletion] at h
  split at h
  · next node hk hnode =>
    split at h
    · cases h
    · next parent hp =>
      refine .inr ⟨node, parent, ?_, hp, (Except.ok.inj h).symm⟩
      exact List.filterMap_cons_some (by rw [if_pos hk, hnode])
  · next hnot =>
    refine .inl ⟨List.filterMap_cons_none ?_, (Except.ok.inj h).symm⟩
    split
    · next hk =>
      by_contra hne
      obtain ⟨node, hnode⟩ := Option.ne_none_iff_exists'.1 hne
      exact hnot node hk hnode
    · rfl

theorem deletions_induction {P : Tree → Prop} (hrun : steps.foldlM applyDeletion d = .ok d')
    (h : P d) (hdelete : ∀ u node parent, P u → u.parent? node = some parent →
      P (deleteAt u node parent)) : P d' := by
  induction steps generalizing d with
  | nil => exact Except.ok.inj hrun ▸ h
  | cons s steps ih =>
    obtain ⟨u, hs, hrest⟩ := foldlM_cons_ok hrun
    rcases applyDeletion_ok hs with ⟨-, rfl⟩ | ⟨node, parent, -, hp, rfl⟩
    · exact ih hrest h
    · exact ih hrest (hdelete d node parent h hp)

theorem moveTargets_of_insertion {s : Step} (h : s.1.kind.isInsertion = true) :
    moveTargets [s] = [] := by
  refine moveTargets_of_not fun hm ↦ ?_
  rw [hm.1] at h
  cases h

theorem applyAddition_pass {s : Step} (hs : ¬ (s.1.kind = .move ∧ ∃ node, s.2 = some node))
    (hi : s.1.kind.isInsertion = false) : applyAddition d s = .ok d := by
  unfold applyAddition
  split
  · next hk hnode => exact absurd ⟨hk, _, hnode⟩ hs
  · next hk => rw [hk] at hi; cases hi
  · next hk => rw [hk] at hi; cases hi
  · rfl

theorem applyAddition_ok {s : Step} (h : applyAddition d s = .ok d') :
    (¬ (s.1.kind = .move ∧ ∃ node, s.2 = some node) ∧ s.1.kind.isInsertion = false ∧ d' = d) ∨
      (∃ node, s.1.kind = .move ∧ s.2 = some node ∧ attach d s.1 node = .ok d') ∨
        ∃ u, s.1.kind.isInsertion = true ∧ s.1.payload = some u ∧ attach
          ((d.importSubtree u root).1.markSubtree d.size .inserted) s.1 d.size = .ok d' := by
  by_cases hs : s.1.kind = .move ∧ ∃ node, s.2 = some node
  · obtain ⟨hk, node, hnode⟩ := hs
    simp only [applyAddition, hk, hnode] at h
    exact .inr (.inl ⟨node, hk, hnode, h⟩)
  · cases hi : s.1.kind.isInsertion with
    | true =>
      cases hu : s.1.payload with
      | none =>
        rw [ChangeKind.isInsertion, Bool.or_eq_true, beq_iff_eq, beq_iff_eq] at hi
        rcases hi with hi | hi <;> simp only [applyAddition, hi, hu, reduceCtorEq] at h
      | some u =>
        obtain ⟨c, a⟩ := s
        rw [applyAddition_insertion hi hu] at h
        exact .inr (.inr ⟨u, rfl, rfl, h⟩)
    | false =>
      rw [applyAddition_pass hs hi] at h
      exact .inl ⟨hs, rfl, (Except.ok.inj h).symm⟩

theorem moving_of_foldlM (h : Moving n first ids d)
    (hrun : steps.foldlM applyMove (d, ids.length) = .ok (d', k)) :
    Moving n first (ids ++ moveTargets steps) d' ∧ Steady d d' := by
  induction steps generalizing ids d with
  | nil =>
    obtain rfl : d = d' := congrArg Prod.fst (Except.ok.inj hrun)
    rw [moveTargets, List.filterMap_nil, List.append_nil]
    exact ⟨h, .refl d⟩
  | cons s steps ih =>
    obtain ⟨z, hs, hrest⟩ := foldlM_cons_ok hrun
    rw [moveTargets_cons, ← List.append_assoc]
    rcases applyMove_ok hs with ⟨hnone, rfl⟩ | ⟨node, parent, hnode, hp, rfl⟩
    · rw [hnone, List.append_nil]
      exact ih h hrest
    · have hlen : (ids ++ [node]).length = ids.length + 1 := List.length_append
      rw [hnode]
      obtain ⟨hm, hs⟩ := ih (h.move hp) (hlen ▸ hrest)
      exact ⟨hm, (steady_detachMoved ..).trans hs⟩

structure Placing (n : Nat) (first : NodeId → Content) (ids out : List NodeId) (d : Tree) : Prop
    extends Underway out d, Numbered n first ids d, Custody out d where
  spared : Spared out d
  nodup : out.Nodup
  sub : ∀ x ∈ out, x ∈ ids
  placed : ∀ x ∈ ids, x ∈ out ∨ x ∈ d.live

theorem Moving.placing (h : Moving n first ids d) : Placing n first ids ids d where
  toUnderway := h.toUnderway
  toNumbered := h.toNumbered
  toCustody := h.toCustody
  spared _ _ x _ := h.unmarked x
  nodup := h.nodup
  sub _ hx := hx
  placed _ hx := .inl hx

theorem placing_of_deletions (h : Placing n first ids ids d)
    (hrun : steps.foldlM applyDeletion d = .ok d') :
    Placing n first ids ids d' ∧ Steady d d' := by
  refine deletions_induction (P := fun u ↦ Placing n first ids ids u ∧ Steady d u) hrun
    ⟨h, .refl d⟩ fun u node parent ⟨hu, hs⟩ hp ↦ ⟨?_, hs.trans (steady_deleteAt ..)⟩
  exact {
    toUnderway := hu.toUnderway.delete hp
    toNumbered := hu.toNumbered.delete hu.toUnderway hp
    toCustody := hu.toCustody.delete hu.toUnderway hp
    spared := hu.toUnderway.spared_delete hu.spared hp
    nodup := hu.nodup
    sub := hu.sub
    placed _ hx := .inl hx }

namespace Placing

theorem attachable (h : Placing n first ids (node :: out) d) (hq : q ∈ d.live)
    (hi : i ≤ (d.children q).length) : Attachable out d q i node :=
  ⟨h.toUnderway, (List.nodup_cons.1 h.nodup).1, hq, hi⟩

theorem attach (h : Placing n first ids (node :: out) d) (hd : attach d c node = .ok d') :
    Placing n first ids out d' := by
  obtain ⟨r, i, q, -, hr, hi, rfl⟩ := attach_ok hd
  have ha := h.attachable (live_of_resolve h.wellFormed hr) hi
  refine ⟨ha.underway_insertChild, h.toNumbered.attach ha fun j hj ↦ ?_,
    h.toCustody.attach ha, ha.spared_insertChild h.spared, (List.nodup_cons.1 h.nodup).2,
    fun x hx ↦ h.sub x (List.mem_cons_of_mem node hx), fun x hx ↦ ?_⟩
  · have hlt := h.lt node (h.sub node List.mem_cons_self)
    exact Nat.ne_of_lt (Nat.lt_of_lt_of_le hlt (Nat.le_add_right n j))
  · rw [ha.mem_live]
    rcases h.placed x hx with hx | hx
    · rcases List.mem_cons.1 hx with rfl | hx
      · exact .inr (.inr .refl)
      · exact .inl hx
    · exact .inr (.inl hx)

theorem plant (h : Placing n first ids out d) {u : Tree} (hs : Sprouted d u)
    (hd : Script.attach u c d.size = .ok d') : Placing n first ids out d' := by
  have w := h.wellFormed
  obtain ⟨r, i, q, -, hr, hi, rfl⟩ := attach_ok hd
  have hfresh : d.size ∉ out := fun hm ↦ Nat.lt_irrefl _ (h.waiting _ hm).2.2
  have ha : Attachable out u q i d.size :=
    ⟨h.toUnderway.sprout hs, hfresh, live_of_resolve hs.wellFormed hr, hi⟩
  refine ⟨ha.underway_insertChild, (h.toNumbered.sprout hs).attach ha fun j hj ↦ ?_,
    (h.toCustody.sprout hs).attach ha,
    ha.spared_insertChild (h.toUnderway.spared_sprout h.spared hs), h.nodup, h.sub,
    fun x hx ↦ (h.placed x hx).imp_right fun hx ↦ ha.mem_live.2 (.inl ?_)⟩
  · have hle := h.size_le
    exact Nat.ne_of_gt (by omega)
  · rw [w.mem_live] at hx
    rw [hs.wellFormed.mem_live]
    refine Relation.ReflTransGen.mono (fun a b hb ↦ ?_) _ _ hx
    rw [IsParent, (hs.others b (lt_size_of_parent? hb)).2]
    exact hb

theorem addition {s : Step} (h : Placing n first ids (moveTargets (s :: steps)) d)
    (hpayload : ∀ u, s.1.payload = some u → u.WellFormed) (hs : applyAddition d s = .ok d') :
    Placing n first ids (moveTargets steps) d' ∧ Steady d d' := by
  rw [moveTargets_cons] at h
  rcases applyAddition_ok hs with ⟨hnot, -, rfl⟩ | ⟨node, hk, hnode, hd⟩ | ⟨v, hi, hv, hd⟩
  · rw [moveTargets_of_not hnot] at h
    exact ⟨h, .refl d'⟩
  · rw [moveTargets_of_move hk hnode] at h
    exact ⟨h.attach hd, steady_attach hd⟩
  · rw [moveTargets_of_insertion hi] at h
    have hsprout := sprouted_importSubtree h.wellFormed (hpayload v hv)
      (h.recorded root h.wellFormed.root_lt)
    exact ⟨h.plant hsprout hd, hsprout.steady.trans (steady_attach hd)⟩

end Placing

theorem placing_of_additions (h : Placing n first ids (moveTargets steps) d)
    (hpayload : ∀ s ∈ steps, ∀ u, s.1.payload = some u → u.WellFormed)
    (hrun : steps.foldlM applyAddition d = .ok d') :
    Placing n first ids [] d' ∧ Steady d d' := by
  induction steps generalizing d with
  | nil =>
    obtain rfl := Except.ok.inj hrun
    exact ⟨h, .refl d⟩
  | cons s steps ih =>
    obtain ⟨u, hs, hrest⟩ := foldlM_cons_ok hrun
    obtain ⟨hu, hsteady⟩ := h.addition (hpayload s List.mem_cons_self) hs
    obtain ⟨hp, hsteady'⟩ := ih hu (fun s hs ↦ hpayload s (List.mem_cons_of_mem _ hs)) hrest
    exact ⟨hp, hsteady.trans hsteady'⟩

theorem target_of_mapM {as : List (Option NodeId)} (h : s.mapM (target d) = .ok as) :
    ∀ c ∈ s, target d c = .ok (aim d c) := by
  induction s generalizing as with
  | nil => exact fun c hc ↦ absurd hc List.not_mem_nil
  | cons c s ih =>
    rw [List.mapM_cons] at h
    cases hc : target d c with
    | error e =>
      rw [hc] at h
      cases h
    | ok a =>
      cases hs : s.mapM (target d) with
      | error e =>
        rw [hc, hs] at h
        cases h
      | ok as =>
        intro c' hc'
        rcases List.mem_cons.1 hc' with rfl | hc'
        · rw [hc, aim_eq hc]
        · exact ih hs c' hc'

theorem patch_ok (h : patch t s = .ok d) :
    (∀ c ∈ s, target (pristine t) c = .ok (aim (pristine t) c)) ∧ ∃ d₁ k d₂,
      (aimed (pristine t) s).foldlM applyMove
        ((aimed (pristine t) s).foldl applyUpdate (pristine t), 0) = .ok (d₁, k) ∧
      (aimed (pristine t) s).foldlM applyDeletion d₁ = .ok d₂ ∧
      (aimed (pristine t) s).foldlM applyAddition d₂ = .ok d := by
  have htargets : ∀ c ∈ s, target (pristine t) c = .ok (aim (pristine t) c) := by
    cases has : s.mapM (target (pristine t)) with
    | error e =>
      rw [patch, has] at h
      cases h
    | ok as => exact target_of_mapM has
  refine ⟨htargets, ?_⟩
  rw [patch_eq s htargets] at h
  cases h₁ : (aimed (pristine t) s).foldlM applyMove
      ((aimed (pristine t) s).foldl applyUpdate (pristine t), 0) with
  | error e =>
    simp only [h₁, bind, Except.bind, reduceCtorEq] at h
  | ok z =>
    obtain ⟨d₁, k⟩ := z
    simp only [h₁, bind, Except.bind] at h
    cases h₂ : (aimed (pristine t) s).foldlM applyDeletion d₁ with
    | error e => simp only [h₂, reduceCtorEq] at h
    | ok d₂ =>
      simp only [h₂] at h
      exact ⟨d₁, k, d₂, rfl, h₂, h⟩

theorem placing_of_moves (w : t.WellFormed) {d₁ d₂ : Tree}
    (h₁ : steps.foldlM applyMove (steps.foldl applyUpdate (pristine t), 0) = .ok (d₁, k))
    (h₂ : steps.foldlM applyDeletion d₁ = .ok d₂) :
    Placing t.live.length (pristine t).content (moveTargets steps) (moveTargets steps) d₂ ∧
      Steady (steps.foldl applyUpdate (pristine t)) d₂ := by
  obtain ⟨hm, hs₁⟩ := moving_of_foldlM (moving_pristine w steps) h₁
  rw [List.nil_append] at hm
  obtain ⟨hd, hs₂⟩ := placing_of_deletions hm.placing h₂
  exact ⟨hd, hs₁.trans hs₂⟩

theorem wellFormed_of_mem_aimed (hpayload : ∀ c ∈ s, ∀ u, c.payload = some u → u.WellFormed) :
    ∀ e ∈ aimed d s, ∀ u, e.1.payload = some u → u.WellFormed := by
  intro e he
  obtain ⟨c, hc, rfl⟩ := List.mem_map.1 he
  exact hpayload c hc

theorem placing_of_patch (w : t.WellFormed)
    (hpayload : ∀ c ∈ s, ∀ u, c.payload = some u → u.WellFormed) (h : patch t s = .ok d) :
    Placing t.live.length (pristine t).content (moveTargets (aimed (pristine t) s)) [] d ∧
      Steady ((aimed (pristine t) s).foldl applyUpdate (pristine t)) d := by
  obtain ⟨-, d₁, k, d₂, h₁, h₂, h₃⟩ := patch_ok h
  obtain ⟨hd, hs⟩ := placing_of_moves w h₁ h₂
  obtain ⟨hp, hs'⟩ := placing_of_additions hd (wellFormed_of_mem_aimed hpayload) h₃
  exact ⟨hp, hs.trans hs'⟩

theorem target_ok {a : Option NodeId} (hk : c.kind.isInsertion = false)
    (h : target d c = .ok a) : ∃ r x, c.old = some r ∧ d.resolve r = .ok x ∧ a = some x := by
  rw [target, hk, if_neg Bool.false_ne_true] at h
  split at h
  · cases h
  · next r hr =>
    cases hx : d.resolve r with
    | error e =>
      rw [hx] at h
      cases h
    | ok x =>
      rw [hx] at h
      exact ⟨r, x, hr, hx, (Except.ok.inj h).symm⟩

def moves (s : Script) : List Change := s.filter fun c ↦ c.kind == .move

theorem moveTargets_aimed (h : ∀ c ∈ s, target d c = .ok (aim d c)) :
    (moveTargets (aimed d s)).map some = (moves s).map (aim d) := by
  induction s with
  | nil => rfl
  | cons c s ih =>
    have hs := ih fun c' hc' ↦ h c' (List.mem_cons_of_mem c hc')
    rw [aimed, List.map_cons, ← aimed, moveTargets_cons, List.map_append, hs, moves, moves,
      List.filter_cons]
    by_cases hk : c.kind = .move
    · obtain ⟨r, x, -, -, hx⟩ := target_ok (by rw [hk]; rfl) (h c List.mem_cons_self)
      rw [moveTargets_of_move hk hx, if_pos (beq_iff_eq.2 hk), List.map_cons, List.map_cons, hx]
      rfl
    · rw [moveTargets_of_not fun hm ↦ hk hm.1, if_neg fun hm ↦ hk (beq_iff_eq.1 hm)]
      rfl

/-- The tree `d` that the script `s` makes of `t` accounts for all nodes of `t`. -/
structure Accounts (t : Tree) (s : Script) (d : Tree) : Prop where
  base : ∀ i < t.live.length, ∃! x, d.Reaches root x ∧ base? d x = some i
  moved : ∀ j c, (moves s)[j]? = some c → ∃ r o, c.old = some r ∧ t.resolve r = .ok o ∧
    (∃ x ∈ d.live, base? d x = some (t.place o) ∧
      ∀ z, d.mark z = .movedHere ∧ d.moveId? z = some (j + 1) ↔ z = x) ∧
    ∃ x, (∀ z, d.mark z = .movedAway ∧ d.moveId? z = some (j + 1) ↔ z = x) ∧
      (∃ q, d.Reaches root q ∧ x ∈ d.placeholders q) ∧ d.children x = [] ∧
        (d.content x == t.content o) = true
  numbers : ∀ x k, d.moveId? x = some k → 1 ≤ k ∧ k ≤ s.count .move ∧ (d.mark x).isMove = true
  live : ∀ x ∈ d.live, (d.mark x).isDeletion = false

/-- A reached node that is no child is a placeholder. -/
theorem exists_holder (w : d.WellFormed) (hx : d.Reaches root x) (hr : x ≠ root)
    (htop : d.parent? x = none) : ∃ q, d.Reaches root q ∧ x ∈ d.placeholders q := by
  rcases Relation.ReflTransGen.cases_tail hx with he | ⟨q, hq, hc | hc⟩
  · exact absurd he hr
  · rw [w.mem_children.1 hc] at htop
    cases htop
  · exact ⟨q, hq, hc⟩

theorem count_move (s : Script) : s.count .move = (moves s).length :=
  List.countP_eq_length_filter

/-- Whatever a script does, it accounts for all nodes of the tree that it starts from. -/
theorem accounts_patch (w : t.WellFormed)
    (hpayload : ∀ c ∈ s, ∀ u, c.payload = some u → u.WellFormed) (h : patch t s = .ok d) :
    Accounts t s d := by
  have hp := (placing_of_patch w hpayload h).1
  have hids := moveTargets_aimed (patch_ok h).1
  have hlen : (moveTargets (aimed (pristine t) s)).length = (moves s).length := by
    simpa using congrArg List.length hids
  have hreached {x : NodeId} (hx : x < d.size) : d.Reaches root x := by
    obtain ⟨r, hr, hrx⟩ := hp.held x hx
    rwa [List.mem_singleton.1 hr] at hrx
  have hle := hp.size_le
  have hsize : t.live.length ≤ d.size := Nat.le_trans (Nat.le_add_right _ _) hle
  refine ⟨fun i hi ↦ ⟨i, ⟨hreached (Nat.lt_of_lt_of_le hi hsize), ?_⟩, ?_⟩, fun j c hc ↦ ?_,
    fun x k hx ↦ ?_, fun x hx ↦ hp.spared root List.mem_cons_self x (hp.wellFormed.mem_live.1 hx)⟩
  · rw [hp.base, if_pos hi]
  · rintro x ⟨-, hx⟩
    rw [hp.base] at hx
    split at hx
    · exact Option.some_inj.1 hx
    · cases hx
  · -- the node that the change starts from
    have hcm := List.mem_filter.1 (List.mem_of_getElem? hc)
    have hk : c.kind = .move := beq_iff_eq.1 hcm.2
    obtain ⟨r, x, hr, hx, ha⟩ := target_ok (by rw [hk]; rfl) ((patch_ok h).1 c hcm.1)
    obtain ⟨o, ho, hro, rfl⟩ := exists_resolve_of_pristine w hx
    have hj : (moveTargets (aimed (pristine t) s))[j]? = some (t.place o) := by
      have hat := congrArg (fun l ↦ l[j]?) hids
      simp only [List.getElem?_map, hc, Option.map_some, ha] at hat
      simpa using hat
    have hmem := List.mem_of_getElem? hj
    have hlt := (List.getElem?_eq_some_iff.1 hj).1
    obtain ⟨hpar, hch⟩ := hp.alone j hlt
    refine ⟨r, o, hr, hro, ⟨t.place o, (hp.placed _ hmem).resolve_left List.not_mem_nil, ?_,
      fun z ↦ hp.movedHere_iff hj⟩, t.live.length + j, fun z ↦ hp.movedAway_iff hj, ?_, hch, ?_⟩
    · rw [hp.base, if_pos (place_lt ho)]
    · refine exists_holder hp.wellFormed
        (hreached (Nat.lt_of_lt_of_le (Nat.add_lt_add_left hlt _) hle)) (fun he ↦ ?_) hpar
      exact absurd hp.root_lt (by rw [← he]; exact Nat.not_lt_of_le (Nat.le_add_right _ j))
    · have hc := (hp.standIn j _ hj).2.2
      rwa [content_pristine w ho] at hc
  · obtain ⟨j, hj, rfl, hm⟩ := hp.of_moveId? hx
    refine ⟨Nat.succ_pos j, ?_, ?_⟩
    · rw [count_move, ← hlen]
      exact hj
    · rcases hm with ⟨-, hm⟩ | ⟨-, hm⟩ <;> rw [hm] <;> rfl

def callsInLoop : Tree :=
  .ofList { label := "description" }
    [(0, { label := "loop" }), (1, { label := "call" }), (1, { label := "choose" }),
      (0, { label := "critical" })]

def callOutOfLoop : Script :=
  [{ kind := .update, old := some [0, 0], updates := [(Content.textKey, ⟨none, some "pay"⟩)] },
    { kind := .move, old := some [0, 0], new := some [0, 0] },
    { kind := .subtreeDeletion, old := some [0] },
    { kind := .deletion, old := some [0, 1] },
    { kind := .insertion, new := some [1], payload := some (leaf { label := "stop" }) }]

theorem payload_callOutOfLoop : ∀ c ∈ callOutOfLoop, ∀ u, c.payload = some u → u.WellFormed := by
  intro c hc u hu
  simp only [callOutOfLoop, List.mem_cons, List.not_mem_nil, or_false] at hc
  rcases hc with rfl | rfl | rfl | rfl | rfl <;> cases hu
  exact wellFormed_rootedAt _ _

theorem patch_callOutOfLoop : ∃ d, patch callsInLoop callOutOfLoop = .ok d := by
  have hok : (patch callsInLoop callOutOfLoop).toOption.isSome = true := by decide +kernel
  cases h : patch callsInLoop callOutOfLoop with
  | error e =>
    rw [h] at hok
    cases hok
  | ok d => exact ⟨d, rfl⟩

theorem accounts_callOutOfLoop :
    ∃ d, patch callsInLoop callOutOfLoop = .ok d ∧ Accounts callsInLoop callOutOfLoop d := by
  obtain ⟨d, h⟩ := patch_callOutOfLoop
  exact ⟨d, h, accounts_patch (wellFormed_ofList _ _ (by decide)) payload_callOutOfLoop h⟩

end FlowMerge.Script
