import FlowMerge.Proofs.Script.Links
import FlowMerge.Proofs.Script.RoundTrip

namespace FlowMerge

namespace Change

def contentAt? (c : Change) (p : Path) : Option Content :=
  match c.new, c.payload with
  | some q, some t =>
    if c.kind.isInsertion && q.isPrefixOf p then
      match t.resolve (p.drop q.length) with
      | .ok id => some (t.content id)
      | .error _ => none
    else none
  | _, _ => none

def removes (c : Change) (p : Path) : Bool :=
  match c.kind, c.old with
  | .deletion, some q => q == p
  | .subtreeDeletion, some q => q.isPrefixOf p
  | _, _ => false

def concerns (kind : ChangeKind) (p : Path) (c : Change) : Bool :=
  c.kind == kind && c.old == some p

end Change

namespace Script

open FlowMerge.Tree

variable {old new t u : Tree} {m : Matching} {a n o x y : NodeId} {p r : Path}

theorem resolveFrom_copied (w : t.WellFormed) {g : NodeId → NodeId}
    (h : ∀ y, t.Above x y → u.children (g y) = (t.children y).map g) (whole whole' : Path)
    (d d' : Nat) : (u.resolveFrom whole (g x) d r).toOption =
      (t.resolveFrom whole' x d' r).toOption.map g := by
  induction r generalizing x d d' with
  | nil => rfl
  | cons i r ih =>
    rw [resolveFrom, resolveFrom, h x .refl, List.getElem?_map]
    cases hc : (t.children x)[i]? with
    | none => rfl
    | some c =>
      have hp : t.IsParent x c := w.mem_children.1 (List.mem_of_getElem? hc)
      exact ih (fun y hy ↦ h y (hy.head hp)) (d + 1) (d' + 1)

theorem exists_resolveFrom (w : t.WellFormed) (h : t.Above a n) (whole : Path) (d : Nat) :
    ∃ r, t.path n = t.path a ++ r ∧ t.resolveFrom whole a d r = .ok n := by
  induction h with
  | refl => exact ⟨[], (List.append_nil _).symm, rfl⟩
  | @tail p n _ hp ih =>
    obtain ⟨r, hr, hres⟩ := ih
    refine ⟨r ++ [t.position n], ?_, ?_⟩
    · rw [w.path_of_parent hp, hr, List.append_assoc]
    · rw [resolveFrom_append hres, resolveFrom, w.getElem?_position hp]
      rfl

theorem contentAt?_eq_some {c : Change} {q : Path} {k : Content} (hkind : c.kind.isInsertion = true)
    (hq : c.new = some q) (ht : c.payload = some t) : c.contentAt? p = some k ↔
      ∃ r id, p = q ++ r ∧ t.resolve r = .ok id ∧ t.content id = k := by
  rw [Change.contentAt?, hq, ht]
  dsimp only
  rw [hkind, Bool.true_and]
  split
  · next hpre =>
    obtain ⟨r, rfl⟩ := List.isPrefixOf_iff_prefix.1 hpre
    rw [List.drop_left]
    constructor
    · intro h
      cases hr : t.resolve r with
      | error e => simp [hr] at h
      | ok id =>
        rw [hr] at h
        exact ⟨r, id, rfl, hr, Option.some_inj.1 h⟩
    · rintro ⟨r', id, hr', hr, rfl⟩
      rw [List.append_cancel_left hr', hr]
  · next hpre =>
    refine ⟨nofun, ?_⟩
    rintro ⟨r, id, rfl, -⟩
    exact absurd (List.isPrefixOf_iff_prefix.2 (List.prefix_append q r)) hpre

theorem contentAt?_insertion {k : Content} :
    Change.contentAt? ⟨.insertion, none, some (new.path a), some (new.nodeCopy a), []⟩ p = some k ↔
      new.path a = p ∧ new.content a = k := by
  rw [contentAt?_eq_some rfl rfl rfl]
  constructor
  · rintro ⟨r, id, hp, hr, hk⟩
    cases r with
    | nil =>
      obtain rfl := Except.ok.inj hr
      exact ⟨(List.append_nil _).symm.trans hp.symm, hk⟩
    | cons i r => cases hr
  · rintro ⟨rfl, rfl⟩
    exact ⟨[], root, (List.append_nil _).symm, rfl, rfl⟩

theorem contentAt?_subtreeInsertion (wn : new.WellFormed) (ha : a < new.size) {k : Content} :
    Change.contentAt? ⟨.subtreeInsertion, none, some (new.path a), some (new.subtreeCopy a), []⟩
      p = some k ↔ ∃ x, new.Above a x ∧ new.path x = p ∧ new.content x = k := by
  obtain ⟨g, hg, hcopy⟩ := grafted_subtreeCopy wn ha
  have hcontent {y : NodeId} (hy : new.Above a y) :
      (new.subtreeCopy a).content (g y) = new.content y := by
    by_cases hya : y = a
    · rw [hya, hg, (hcopy.data root Nat.one_pos).1]
      rfl
    · exact hcopy.content y (inside_singleton.2 hy) (by simpa using hya)
  -- a way within the copy is the same way below `a`
  have hresolve (r : Path) : ((new.subtreeCopy a).resolve r).toOption =
      (new.resolveFrom r a 0 r).toOption.map g := by
    rw [← resolveFrom_copied wn (fun y hy ↦ hcopy.children y (inside_singleton.2 hy)) r r 0 0, hg]
    rfl
  rw [contentAt?_eq_some rfl rfl rfl]
  constructor
  · rintro ⟨r, id, hp, hr, hk⟩
    have hid := hresolve r
    rw [hr] at hid
    cases hx : new.resolveFrom r a 0 r with
    | error e => simp [hx, Except.toOption] at hid
    | ok x =>
      rw [hx] at hid
      obtain rfl : id = g x := Option.some_inj.1 hid
      have hax := above_of_resolveFrom wn hx
      exact ⟨x, hax, (path_of_resolveFrom wn hx).trans hp.symm, (hcontent hax).symm.trans hk⟩
  · rintro ⟨x, hax, rfl, rfl⟩
    obtain ⟨r, hp, -⟩ := exists_resolveFrom wn hax [] 0
    obtain ⟨r', hp', hr'⟩ := exists_resolveFrom wn hax r 0
    obtain rfl := List.append_cancel_left (hp.symm.trans hp')
    refine ⟨r, g x, hp, ?_, hcontent hax⟩
    have hid := hresolve r
    rw [hr'] at hid
    cases hx : (new.subtreeCopy a).resolve r with
    | error e => simp [hx, Except.toOption] at hid
    | ok id =>
      rw [hx] at hid
      rw [Option.some_inj.1 hid]

theorem prefix_path_iff (w : t.WellFormed) (ha : a ∈ t.live) (hn : n ∈ t.live) :
    t.path a <+: t.path n ↔ t.Above a n := by
  have hself {x : NodeId} (hx : x ∈ t.live) (whole : Path) :
      t.resolveFrom whole root 0 (t.path x) = .ok x := by
    obtain ⟨r, hr, hres⟩ := exists_resolveFrom w (w.mem_live.1 hx) whole 0
    rwa [hr, path_of_top w.root_top]
  constructor
  · rintro ⟨r, hr⟩
    have hres := hself hn []
    rw [← hr, resolveFrom_append (hself ha [])] at hres
    exact above_of_resolveFrom w hres
  · intro h
    obtain ⟨r, hr, -⟩ := exists_resolveFrom w h [] 0
    exact ⟨r, hr.symm⟩

theorem contentAt?_eq_none {c : Change} (h : c.kind.isInsertion = false) (p : Path) :
    c.contentAt? p = none := by
  rw [Change.contentAt?, h]
  cases c.new with
  | none => rfl
  | some q => cases c.payload <;> rfl

theorem isDeletion_of_mem {c : Change} (h : c ∈ removalsAt old m o) : c.kind.isDeletion = true := by
  rw [removalsAt] at h
  split at h
  · cases h
  · split at h <;> rw [List.mem_singleton.1 h] <;> rfl

theorem mem_moveOf {ids : List NodeId} {c : Change} (h : c ∈ moveOf old new m ids n o) :
    c = { kind := .move, old := some (old.path o), new := some (new.path n) } := by
  rw [moveOf] at h
  split at h
  · exact List.mem_singleton.1 h
  · cases h

theorem mem_updateOf {c : Change} (h : c ∈ updateOf old new n o) : c =
    { kind := .update, old := some (old.path o), payload := some (new.nodeCopy n),
      updates := (old.content o).diffFields (new.content n) } := by
  rw [updateOf] at h
  split at h
  · cases h
  · exact List.mem_singleton.1 h

theorem additionsAt_of_free (old : Tree) (wn : new.WellFormed) (ha : a < new.size)
    (h : m.old? a = none) : ∃ c, additionsAt old new m a = [c] ∧ ∀ p k, c.contentAt? p = some k ↔
      ∃ x, new.Meets (wholeNew new m) a x ∧ new.path x = p ∧ new.content x = k := by
  rw [additionsAt, h]
  by_cases hw : wholeNew new m a = true
  · refine ⟨_, if_pos hw, fun p k ↦ ?_⟩
    simp only [contentAt?_subtreeInsertion wn ha, Meets, if_pos hw]
  · refine ⟨_, if_neg hw, fun p k ↦ ?_⟩
    simp only [contentAt?_insertion, Meets, if_neg hw, exists_eq_left']

theorem free_of_meets (wn : new.WellFormed) (ha : a < new.size) (h : m.old? a = none)
    (hx : new.Meets (wholeNew new m) a x) : m.old? x = none := by
  by_cases hw : wholeNew new m a = true
  · exact (wholeNew_iff wn ha).1 hw x hx.above
  · rw [Meets, if_neg hw] at hx
    exact hx ▸ h

/-- A node of the new tree without counterpart comes with just one change, and one that has a
counterpart with none. -/
theorem filterMap_contentAt? (wo : old.WellFormed) (wn : new.WellFormed) (h : Clean old new m)
    (hn : n ∈ new.live) :
    (ofMatching old new m).filterMap (·.contentAt? (new.path n)) =
      if m.hasNew n then [] else [new.content n] := by
  obtain ⟨a, ⟨ha, hmeets⟩, hunique⟩ := wn.existsUnique_meets (wholeNew new m) hn
  have hlive {x : NodeId} (hx : x ∈ new.pruned (wholeNew new m)) : x ∈ new.live :=
    (wn.mem_pruned.1 hx).1
  -- a removal brings nothing
  have hremovals : ((old.pruned (wholeOld old m)).flatMap (removalsAt old m)).filterMap
      (·.contentAt? (new.path n)) = [] := by
    refine List.filterMap_eq_nil_iff.2 fun c hc ↦ contentAt?_eq_none ?_ _
    obtain ⟨x, -, hc⟩ := List.mem_flatMap.1 hc
    exact (mem_removalsAt hc).1
  have hmatched {x o : NodeId} (hxo : m.old? x = some o) :
      (additionsAt old new m x).filterMap (·.contentAt? (new.path n)) = [] :=
    List.filterMap_eq_nil_iff.2 fun c hc ↦ contentAt?_eq_none (mem_additionsAt wo wn h hxo hc).1 _
  -- and of the additions only the one that meets `n` says anything at its path
  have hothers : ∀ x ∈ new.pruned (wholeNew new m), x ≠ a →
      (additionsAt old new m x).filterMap (·.contentAt? (new.path n)) = [] := by
    intro x hx hxa
    cases hm : m.old? x with
    | some o => exact hmatched hm
    | none =>
      obtain ⟨c, hc, hk⟩ := additionsAt_of_free old wn (wn.live_lt (hlive hx)) hm
      rw [hc]
      refine List.filterMap_cons_none (Option.eq_none_iff_forall_ne_some.2 fun k hck ↦ ?_)
      obtain ⟨y, hy, hp, -⟩ := (hk _ k).1 hck
      have hyl := wn.mem_live.2 ((wn.mem_live.1 (hlive hx)).trans hy.above)
      obtain rfl := path_inj wn hyl hn hp
      exact hxa (hunique x ⟨hx, hy⟩)
  rw [ofMatching_eq wn, List.filterMap_append, hremovals, List.append_nil, List.filterMap_flatMap,
    flatMap_eq_of_unique ha (wn.nodup_pruned _) hothers]
  cases hm : m.old? a with
  | some o =>
    have hw : ¬ wholeNew new m a = true := by simp [wholeNew, Matching.hasNew, hm]
    rw [Meets, if_neg hw] at hmeets
    rw [hmatched hm, ← hmeets, Matching.hasNew, hm]
    rfl
  | none =>
    have hfree := free_of_meets wn (wn.live_lt (hlive ha)) hm hmeets
    obtain ⟨c, hc, hk⟩ := additionsAt_of_free old wn (wn.live_lt (hlive ha)) hm
    have hcontent := (hk (new.path n) _).2 ⟨n, hmeets, rfl, rfl⟩
    simp [hc, hcontent, Matching.hasNew, hfree]

theorem removes_eq_false {c : Change} (h : c.kind.isDeletion = false) (p : Path) :
    c.removes p = false := by
  rw [Change.removes]
  split
  · next hk _ => rw [hk] at h; cases h
  · next hk _ => rw [hk] at h; cases h
  · rfl

theorem isDeletion_of_mem_additionsAt {c : Change} (h : c ∈ additionsAt old new m n) :
    c.kind.isDeletion = false := by
  rw [additionsAt] at h
  split at h
  · rcases List.mem_append.1 h with h | h
    · rw [mem_moveOf h]
      rfl
    · rw [mem_updateOf h]
      rfl
  · split at h <;> rw [List.mem_singleton.1 h] <;> rfl

theorem removalsAt_of_free (wo : old.WellFormed) (ha : a ∈ old.live) (h : m.hasOld a = false) :
    ∃ c, removalsAt old m a = [c] ∧ ∀ o ∈ old.live,
      c.removes (old.path o) = true ↔ old.Meets (wholeOld old m) a o := by
  rw [removalsAt, h, if_neg Bool.false_ne_true]
  by_cases hw : wholeOld old m a = true
  · refine ⟨_, if_pos hw, fun o ho ↦ ?_⟩
    rw [Meets, if_pos hw, ← prefix_path_iff wo ha ho]
    exact List.isPrefixOf_iff_prefix
  · refine ⟨_, if_neg hw, fun o ho ↦ ?_⟩
    rw [Meets, if_neg hw]
    exact beq_iff_eq.trans ⟨path_inj wo ha ho, fun he ↦ he ▸ rfl⟩

theorem countP_removes (wo : old.WellFormed) (wn : new.WellFormed) (ho : o ∈ old.live) :
    (ofMatching old new m).countP (·.removes (old.path o)) = if m.hasOld o then 0 else 1 := by
  obtain ⟨a, ⟨ha, hmeets⟩, hunique⟩ := wo.existsUnique_meets (wholeOld old m) ho
  have hlive {x : NodeId} (hx : x ∈ old.pruned (wholeOld old m)) : x ∈ old.live :=
    (wo.mem_pruned.1 hx).1
  have hadditions : ((new.pruned (wholeNew new m)).flatMap (additionsAt old new m)).filter
      (·.removes (old.path o)) = [] := by
    refine List.filter_eq_nil_iff.2 fun c hc ↦ ?_
    obtain ⟨x, -, hc⟩ := List.mem_flatMap.1 hc
    rw [removes_eq_false (isDeletion_of_mem_additionsAt hc)]
    exact Bool.false_ne_true
  -- only the removal that meets `o` removes its path
  have hothers : ∀ x ∈ old.pruned (wholeOld old m), x ≠ a →
      (removalsAt old m x).filter (·.removes (old.path o)) = [] := by
    intro x hx hxa
    cases hm : m.hasOld x with
    | true => rw [removalsAt, hm, if_pos rfl]; rfl
    | false =>
      obtain ⟨c, hc, hk⟩ := removalsAt_of_free wo (hlive hx) hm
      rw [hc]
      exact List.filter_cons_of_neg fun hr ↦ hxa (hunique x ⟨hx, (hk o ho).1 hr⟩)
  rw [ofMatching_eq wn, List.countP_eq_length_filter, List.filter_append, hadditions,
    List.nil_append, List.filter_flatMap, flatMap_eq_of_unique ha (wo.nodup_pruned _) hothers]
  cases hm : m.hasOld a with
  | true =>
    have hw : ¬ wholeOld old m a = true := by simp [wholeOld, hm]
    rw [Meets, if_neg hw] at hmeets
    rw [removalsAt, hm, ← hmeets, hm]
    rfl
  | false =>
    have hfree : m.hasOld o = false := by
      by_cases hw : wholeOld old m a = true
      · exact (wholeOld_iff wo (wo.live_lt (hlive ha))).1 hw o hmeets.above
      · rw [Meets, if_neg hw] at hmeets
        exact hmeets ▸ hm
    obtain ⟨c, hc, hk⟩ := removalsAt_of_free wo (hlive ha) hm
    simp [hc, (hk o ho).2 hmeets, hfree]

theorem isInsertion_of_mem_additionsAt {c : Change} (h : c ∈ additionsAt old new m n)
    (hn : m.old? n = none) : c.kind.isInsertion = true := by
  rw [additionsAt, hn] at h
  dsimp only at h
  split at h <;> rw [List.mem_singleton.1 h] <;> rfl

/-- Where the walk comes to a matched node, the script says all that it says of the two. -/
theorem filter_concerns (wo : old.WellFormed) (wn : new.WellFormed) (h : Clean old new m)
    (hno : m.old? n = some o) {kind : ChangeKind} (hi : kind.isInsertion = false)
    (hd : kind.isDeletion = false) :
    (ofMatching old new m).filter (Change.concerns kind (old.path o)) =
      (additionsAt old new m n).filter (·.kind == kind) := by
  have hkind {c : Change} (hc : c.concerns kind (old.path o) = true) :
      c.kind = kind ∧ c.old = some (old.path o) := by
    rw [Change.concerns, Bool.and_eq_true, beq_iff_eq, beq_iff_eq] at hc
    exact hc
  have hremovals : ((old.pruned (wholeOld old m)).flatMap (removalsAt old m)).filter
      (Change.concerns kind (old.path o)) = [] := by
    refine List.filter_eq_nil_iff.2 fun c hc hcc ↦ ?_
    obtain ⟨x, -, hc⟩ := List.mem_flatMap.1 hc
    rw [← (hkind hcc).1, isDeletion_of_mem hc] at hd
    cases hd
  have hothers : ∀ x ∈ new.pruned (wholeNew new m), x ≠ n →
      (additionsAt old new m x).filter (Change.concerns kind (old.path o)) = [] := by
    refine fun x hx hxn ↦ List.filter_eq_nil_iff.2 fun c hc hcc ↦ ?_
    cases hm : m.old? x with
    | none =>
      rw [← (hkind hcc).1, isInsertion_of_mem_additionsAt hc hm] at hi
      cases hi
    | some ox =>
      have hpath := Option.some_inj.1 ((mem_additionsAt wo wn h hm hc).2.symm.trans (hkind hcc).2)
      have hoo := path_inj wo (h.live x ox hm).2 (h.live n o hno).2 hpath
      exact hxn (h.oneToOne.new_inj hm (hoo ▸ hno))
  rw [ofMatching_eq wn, List.filter_append, hremovals, List.append_nil, List.filter_flatMap,
    flatMap_eq_of_unique (h.mem_pruned_new wn hno) (wn.nodup_pruned _) hothers]
  refine List.filter_congr fun c hc ↦ ?_
  rw [Change.concerns, (mem_additionsAt wo wn h hno hc).2, beq_self_eq_true, Bool.and_true]

theorem filter_updates (wo : old.WellFormed) (wn : new.WellFormed) (h : Clean old new m)
    (hno : m.old? n = some o) :
    (ofMatching old new m).filter (Change.concerns .update (old.path o)) =
      if old.content o == new.content n then [] else
        [⟨.update, some (old.path o), none, some (new.nodeCopy n),
          (old.content o).diffFields (new.content n)⟩] := by
  have hmoves : (moveOf old new m (ordered old new m n) n o).filter (·.kind == .update) = [] := by
    refine List.filter_eq_nil_iff.2 fun c hc ↦ ?_
    rw [mem_moveOf hc]
    exact Bool.false_ne_true
  have hupdates : (updateOf old new n o).filter (·.kind == .update) = updateOf old new n o := by
    refine List.filter_eq_self.2 fun c hc ↦ ?_
    rw [mem_updateOf hc]
    rfl
  rw [filter_concerns wo wn h hno rfl rfl, additionsAt, hno]
  dsimp only
  rw [List.filter_append, hmoves, hupdates, List.nil_append, updateOf]
  exact if_congr (List.isEmpty_iff.trans Content.diffFields_eq_nil_iff) rfl rfl

theorem moves_additionsAt (wo : old.WellFormed) (wn : new.WellFormed) (h : Clean old new m)
    (hno : m.old? n = some o) : (additionsAt old new m n).filter (·.kind == .move) =
      if stays old new m n then [] else
        [⟨.move, some (old.path o), some (new.path n), none, []⟩] := by
  have hmoves : (moveOf old new m (ordered old new m n) n o).filter (·.kind == .move) =
      moveOf old new m (ordered old new m n) n o := by
    refine List.filter_eq_self.2 fun c hc ↦ ?_
    rw [mem_moveOf hc]
    rfl
  have hupdates : (updateOf old new n o).filter (·.kind == .move) = [] := by
    refine List.filter_eq_nil_iff.2 fun c hc ↦ ?_
    rw [mem_updateOf hc]
    exact Bool.false_ne_true
  rw [additionsAt, hno]
  dsimp only
  rw [List.filter_append, hmoves, hupdates, List.append_nil, moveOf_eq wo wn h hno]

theorem filter_moves (wo : old.WellFormed) (wn : new.WellFormed) (h : Clean old new m)
    (hno : m.old? n = some o) :
    (ofMatching old new m).filter (Change.concerns .move (old.path o)) =
      if stays old new m n then [] else
        [⟨.move, some (old.path o), some (new.path n), none, []⟩] :=
  (filter_concerns wo wn h hno rfl rfl).trans (moves_additionsAt wo wn h hno)

/-- Two trees are the same to a matching: all nodes have counterparts, with the same contents, below
the counterparts of their parents and in the same order. -/
structure Unchanged (old new : Tree) (m : Matching) : Prop where
  hasNew : ∀ n ∈ new.live, m.hasNew n = true
  hasOld : ∀ o ∈ old.live, m.hasOld o = true
  parents : ∀ n o p, m.old? n = some o → new.parent? n = some p →
    ∃ po, m.old? p = some po ∧ old.parent? o = some po
  order : ∀ x y p ox oy, new.parent? x = some p → new.parent? y = some p → m.old? x = some ox →
    m.old? y = some oy → new.position x < new.position y → old.position ox < old.position oy
  contents : ∀ n o, m.old? n = some o → (old.content o == new.content n) = true

theorem position_lt_of_inOrder (wo : old.WellFormed) (wn : new.WellFormed) {pn ox oy : NodeId}
    (hx : x ∈ inOrder old new m pn) (hy : y ∈ inOrder old new m pn) (hox : m.old? x = some ox)
    (hoy : m.old? y = some oy) (hlt : new.position x < new.position y) :
    old.position ox < old.position oy := by
  obtain ⟨po, -, hpo, -⟩ := mem_inOrder wo hx
  obtain ⟨hsub, os, hos, hmap⟩ := @inOrder_spec old new m pn po hpo
  obtain ⟨i, hi, rfl⟩ := List.mem_iff_getElem.1 hx
  obtain ⟨j, hj, rfl⟩ := List.mem_iff_getElem.1 hy
  have hget {k : Nat} (hk : k < (inOrder old new m pn).length) {z : NodeId}
      (hz : m.old? (inOrder old new m pn)[k] = some z) : os[k]? = some z := by
    have hmapk := congrArg (·[k]?) hmap
    rw [List.getElem?_map, List.getElem?_eq_getElem hk, Option.map_some, hz,
      List.getElem?_map] at hmapk
    exact (Option.map_eq_some_iff.1 hmapk.symm).elim fun w hw ↦ Option.some_inj.1 hw.2 ▸ hw.1
  have hij : i < j := by
    by_contra hle
    rcases Nat.lt_or_eq_of_le (Nat.le_of_not_lt hle) with hji | rfl
    · have := List.pairwise_iff_getElem.1 ((wn.pairwise_children pn).sublist hsub) j i hj hi hji
      omega
    · exact Nat.lt_irrefl _ hlt
  obtain ⟨hi', rfl⟩ := List.getElem?_eq_some_iff.1 (hget hi hox)
  obtain ⟨hj', rfl⟩ := List.getElem?_eq_some_iff.1 (hget hj hoy)
  exact List.pairwise_iff_getElem.1 ((wo.pairwise_children po).sublist hos) i j hi' hj' hij

theorem mem_before (wo : old.WellFormed) {pn po : NodeId} {e : NodeId × NodeId}
    (he : e ∈ staying old new m po pn) : e.2 ∈ (old.children po).filter fun oc ↦
      ((staying old new m po pn).map Prod.snd).contains oc :=
  List.mem_filter.2 ⟨wo.mem_children.2 (mem_staying.1 he).2.2,
    List.contains_iff_mem.2 (List.mem_map_of_mem he)⟩

/-- Where counterparts keep the order of the children, the old children that are left to compare are
the counterparts as they come. -/
theorem filter_staying (wo : old.WellFormed) {pn po : NodeId}
    (hordered : ((staying old new m po pn).map Prod.snd).Pairwise
      fun c d ↦ old.position c < old.position d) :
    (old.children po).filter (fun oc ↦ ((staying old new m po pn).map Prod.snd).contains oc) =
      (staying old new m po pn).map Prod.snd := by
  have hfilter := (wo.pairwise_children po).filter fun oc ↦
    ((staying old new m po pn).map Prod.snd).contains oc
  refine (sublist_of_positions hfilter hordered fun oc hoc ↦ ?_).antisymm
    (sublist_of_positions hordered hfilter fun oc hoc ↦ ?_)
  · exact List.contains_iff_mem.1 (List.mem_filter.1 hoc).2
  · obtain ⟨e, he, rfl⟩ := List.mem_map.1 hoc
    exact mem_before wo he

theorem inOrder_of_unchanged (wo : old.WellFormed) (wn : new.WellFormed)
    (hu : Unchanged old new m) {pn po : NodeId} (hp : pn ∈ new.live) (hpo : m.old? pn = some po) :
    inOrder old new m pn = new.children pn := by
  have hcounterpart {c : NodeId} (hc : c ∈ new.children pn) :
      ∃ oc, m.old? c = some oc ∧ old.parent? oc = some po := by
    obtain ⟨oc, hoc⟩ := Option.isSome_iff_exists.1 (hu.hasNew c (wn.child_live hp hc))
    obtain ⟨po', hpo', hpar⟩ := hu.parents c oc pn hoc (wn.mem_children.1 hc)
    obtain rfl := Option.some_inj.1 (hpo'.symm.trans hpo)
    exact ⟨oc, hoc, hpar⟩
  have hfst : (staying old new m po pn).map Prod.fst = new.children pn := by
    rw [staying, List.map_filterMap]
    refine (List.filterMap_eq_map_iff_forall_eq_some.2 fun c hc ↦ ?_).trans (List.map_id _)
    obtain ⟨oc, hoc, hpar⟩ := hcounterpart hc
    simp [hoc, hpar]
  have hordered : ((staying old new m po pn).map Prod.snd).Pairwise
      fun c d ↦ old.position c < old.position d := by
    have hchildren := wn.pairwise_children pn
    rw [← hfst, List.pairwise_map] at hchildren
    refine List.pairwise_map.2 (hchildren.imp_of_mem fun {x y} hx hy hlt ↦ ?_)
    obtain ⟨hxc, hxo, -⟩ := mem_staying.1 hx
    obtain ⟨hyc, hyo, -⟩ := mem_staying.1 hy
    exact hu.order x.1 y.1 pn x.2 y.2 (wn.mem_children.1 hxc) (wn.mem_children.1 hyc) hxo hyo hlt
  have hagree : List.Forall₂ (fun (c : NodeId × NodeId) oc ↦ (c.2 == oc) = true)
      (staying old new m po pn) ((staying old new m po pn).map Prod.snd) :=
    List.forall₂_map_right_iff.2 (List.forall₂_same.2 fun c _ ↦ beq_self_eq_true c.2)
  rw [inOrder, hpo]
  dsimp only
  rw [filter_staying wo hordered, ← hfst]
  conv => rhs; rw [← Sequence.filterMap_commonPairs_of_forall₂ hagree]
  rw [List.map_filterMap]

theorem Unchanged.of_eq_nil (wo : old.WellFormed) (wn : new.WellFormed) (h : Clean old new m)
    (hnil : ofMatching old new m = []) : Unchanged old new m := by
  have hstays {n o : NodeId} (hno : m.old? n = some o) : stays old new m n = true := by
    have hmoves := filter_moves wo wn h hno
    rw [hnil] at hmoves
    by_contra hs
    rw [if_neg hs] at hmoves
    cases hmoves
  constructor
  case hasNew =>
    intro n hn
    have hcontent := filterMap_contentAt? wo wn h hn
    rw [hnil] at hcontent
    by_contra hfree
    rw [if_neg hfree] at hcontent
    cases hcontent
  case hasOld =>
    intro o ho
    have hcount := countP_removes wo wn (m := m) ho
    rw [hnil] at hcount
    by_contra hfree
    rw [if_neg hfree] at hcount
    cases hcount
  case parents => exact fun n o p hno hp ↦ parents_of_stays wo (hstays hno) hno hp
  case order =>
    intro x y p ox oy hx hy hox hoy hlt
    exact position_lt_of_inOrder wo wn ((stays_iff hx).1 (hstays hox))
      ((stays_iff hy).1 (hstays hoy)) hox hoy hlt
  case contents =>
    intro n o hno
    have hupdates := filter_updates wo wn h hno
    rw [hnil] at hupdates
    by_contra hdiffer
    rw [if_neg hdiffer] at hupdates
    cases hupdates

theorem Unchanged.stays (wo : old.WellFormed) (wn : new.WellFormed) (hu : Unchanged old new m)
    (hn : n ∈ new.live) (hno : m.old? n = some o) : stays old new m n = true := by
  by_cases hr : n = root
  · exact hr ▸ stays_root wn
  · obtain ⟨pn, hpn, hpl⟩ := wn.exists_parent_of_live hn hr
    obtain ⟨po, hpo, -⟩ := hu.parents n o pn hno hpn
    rw [stays_iff hpn, inOrder_of_unchanged wo wn hu hpl hpo]
    exact wn.mem_children.2 hpn

theorem ofMatching_eq_nil_iff (wo : old.WellFormed) (wn : new.WellFormed) (h : Clean old new m) :
    ofMatching old new m = [] ↔ Unchanged old new m := by
  refine ⟨.of_eq_nil wo wn h, fun hu ↦ ?_⟩
  have hadditions : ∀ n ∈ new.pruned (wholeNew new m), additionsAt old new m n = [] := by
    intro n hn
    have hnl := (wn.mem_pruned.1 hn).1
    obtain ⟨o, hno⟩ := Option.isSome_iff_exists.1 (hu.hasNew n hnl)
    have hupdates : ((old.content o).diffFields (new.content n)).isEmpty = true :=
      List.isEmpty_iff.2 (Content.diffFields_eq_nil_iff.2 (hu.contents n o hno))
    rw [additionsAt, hno]
    dsimp only
    rw [moveOf_eq wo wn h hno, if_pos (hu.stays wo wn hnl hno), updateOf, if_pos hupdates,
      List.append_nil]
  have hremovals : ∀ o ∈ old.pruned (wholeOld old m), removalsAt old m o = [] :=
    fun o ho ↦ if_pos (hu.hasOld o (wo.mem_pruned.1 ho).1)
  rw [ofMatching_eq wn, List.flatMap_eq_nil_iff.2 hadditions, List.flatMap_eq_nil_iff.2 hremovals,
    List.append_nil]

/-- A script says of each node of two trees what there is to say, once, and nothing else. -/
structure Covers (old new : Tree) (m : Matching) (script : Script) : Prop where
  /-- A new node without counterpart is in one payload, with its content, and no other is in any. -/
  inserted : ∀ n ∈ new.live, script.filterMap (·.contentAt? (new.path n)) =
    if m.hasNew n then [] else [new.content n]
  removed : ∀ o ∈ old.live, script.countP (·.removes (old.path o)) = if m.hasOld o then 0 else 1
  updated : ∀ n o, m.old? n = some o → script.filter (Change.concerns .update (old.path o)) =
    if old.content o == new.content n then [] else
      [⟨.update, some (old.path o), none, some (new.nodeCopy n),
        (old.content o).diffFields (new.content n)⟩]
  moved : ∀ n o, m.old? n = some o → script.countP (Change.concerns .move (old.path o)) ≤ 1
  only_new : ∀ c ∈ script, ∀ p k, c.contentAt? p = some k →
    ∃ n ∈ new.live, new.path n = p ∧ m.hasNew n = false
  only_old : ∀ c ∈ script, c.kind.isInsertion = false →
    ∃ o ∈ old.live, c.old = some (old.path o) ∧ m.hasOld o = !c.kind.isDeletion

theorem covers_ofMatching (wo : old.WellFormed) (wn : new.WellFormed) (h : Clean old new m) :
    Covers old new m (ofMatching old new m) where
  inserted _ hn := filterMap_contentAt? wo wn h hn
  removed _ ho := countP_removes wo wn ho
  updated _ _ hno := filter_updates wo wn h hno
  moved n o hno := by
    rw [List.countP_eq_length_filter, filter_moves wo wn h hno]
    split
    · exact Nat.zero_le 1
    · exact le_rfl
  only_new c hc p k hk := by
    have hlost (hi : c.kind.isInsertion = false) : False := by
      rw [contentAt?_eq_none hi] at hk
      cases hk
    rw [ofMatching_eq wn, List.mem_append, List.mem_flatMap, List.mem_flatMap] at hc
    rcases hc with ⟨x, hx, hc⟩ | ⟨o, -, hc⟩
    · have hxl := (wn.mem_pruned.1 hx).1
      cases hm : m.old? x with
      | some o => exact (hlost (mem_additionsAt wo wn h hm hc).1).elim
      | none =>
        obtain ⟨c', hc', hput⟩ := additionsAt_of_free old wn (wn.live_lt hxl) hm
        rw [hc', List.mem_singleton] at hc
        subst hc
        obtain ⟨y, hy, hp, -⟩ := (hput p k).1 hk
        refine ⟨y, wn.mem_live.2 ((wn.mem_live.1 hxl).trans hy.above), hp, ?_⟩
        rw [Matching.hasNew, free_of_meets wn (wn.live_lt hxl) hm hy]
        rfl
    · exact (hlost (mem_removalsAt hc).1).elim
  only_old c hc hi := by
    rw [ofMatching_eq wn, List.mem_append, List.mem_flatMap, List.mem_flatMap] at hc
    rcases hc with ⟨x, -, hc⟩ | ⟨o, ho, hc⟩
    · cases hm : m.old? x with
      | some o =>
        refine ⟨o, (h.live x o hm).2, (mem_additionsAt wo wn h hm hc).2, ?_⟩
        rw [h.hasOld_iff.2 ⟨x, hm⟩, isDeletion_of_mem_additionsAt hc]
        rfl
      | none =>
        rw [isInsertion_of_mem_additionsAt hc hm] at hi
        cases hi
    · refine ⟨o, (wo.mem_pruned.1 ho).1, (mem_removalsAt hc).2, ?_⟩
      rw [isDeletion_of_mem hc, Bool.not_true, Bool.eq_false_iff]
      intro hmatched
      rw [removalsAt, if_pos hmatched] at hc
      cases hc

/-- The script of two trees covers them, whatever one-to-one matching it is derived for, and it is
empty just if the trees are the same to that matching. -/
theorem covers_derive (wo : old.WellFormed) (wn : new.WellFormed) (h : m.OneToOne) :
    Covers old new (clean old new m) (derive old new m) ∧
      (derive old new m = [] ↔ Unchanged old new (clean old new m)) :=
  ⟨covers_ofMatching wo wn (clean_clean wo wn h), ofMatching_eq_nil_iff wo wn (clean_clean wo wn h)⟩

/-- The call and the loop are matched, and the branch between them is new. -/
theorem covers_derive_callInLoop :
    let m := clean callThenLoop callInLoop (.link (.link .empty 1 2) 3 1)
    Covers callThenLoop callInLoop m
        (derive callThenLoop callInLoop (.link (.link .empty 1 2) 3 1)) ∧
      (derive callThenLoop callInLoop (.link (.link .empty 1 2) 3 1) = [] ↔
        Unchanged callThenLoop callInLoop m) :=
  covers_derive (wellFormed_ofList _ _ (by decide)) (wellFormed_ofList _ _ (by decide))
    ((Matching.OneToOne.empty.link 1 2).link 3 1)

end Script

end FlowMerge
