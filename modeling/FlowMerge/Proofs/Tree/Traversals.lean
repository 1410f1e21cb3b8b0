import FlowMerge.Merge.Basic
import FlowMerge.Proofs.Tree.Building
import FlowMerge.Proofs.Tree.Transcripts

namespace FlowMerge.Tree

variable {t u src : Tree} {f : NodeId → NodeId} {x : NodeId} {o : Nat → Overlay} {n : Nat}

def walk (t : Tree) : Nat → List NodeId → List NodeId
  | 0, _ => []
  | _ + 1, [] => []
  | n + 1, x :: stack => x :: t.walk n (t.children x ++ stack)

def copyWith (src : Tree) (o : Overlay) : Nat → Tree → List (NodeId × NodeId) → Tree
  | 0, t, _ => t
  | _ + 1, t, [] => t
  | n + 1, t, e :: stack =>
    let (t, copies) := importChildren src e.1 o t e.2
    copyWith src o n t (copies ++ stack)

namespace WellFormed

theorem length_preorder_le (w : t.WellFormed) (hx : x < t.size) :
    (t.preorder x).length ≤ t.size := by
  have hs : t.preorder x ⊆ List.range t.size := by
    intro y hy
    rw [w.mem_preorder hx] at hy
    rcases above_iff.1 hy with rfl | ⟨p, hp, -⟩
    · exact List.mem_range.2 hx
    · exact List.mem_range.2 (lt_size_of_parent? hp)
  have hl := ((w.nodup_preorder hx).subperm hs).length_le
  rwa [List.length_range] at hl

theorem walk_eq (w : t.WellFormed) {stack : List NodeId} (hs : ∀ x ∈ stack, x < t.size)
    (hn : (stack.flatMap t.preorder).length ≤ n) : t.walk n stack = stack.flatMap t.preorder := by
  induction n generalizing stack with
  | zero => exact (List.eq_nil_of_length_eq_zero (Nat.le_zero.1 hn)).symm
  | succ n ih =>
    cases stack with
    | nil => rfl
    | cons x stack =>
      have hx := hs x List.mem_cons_self
      have hnext : (x :: stack).flatMap t.preorder =
          x :: (t.children x ++ stack).flatMap t.preorder := by
        rw [List.flatMap_cons, w.preorder_eq hx, List.cons_append, List.flatMap_append]
      rw [hnext] at hn ⊢
      rw [walk, ih (fun y hy ↦ ?_) (Nat.le_of_succ_le_succ hn)]
      rcases List.mem_append.1 hy with hy | hy
      · exact w.child_lt hy
      · exact hs y (List.mem_cons_of_mem x hy)

theorem importBelow_eq (w : src.WellFormed) (o : Overlay) (hx : x < src.size) (t : Tree)
    (p : NodeId) :
    importBelow src o src.size t x p =
      (importChildren src x o t p).2.foldl (fun t e ↦ importBelow src o src.size t e.1 e.2)
        (importChildren src x o t p).1 := by
  have hstep : (fun t p ↦ importBelow src o src.size t x p) =
      fun t p ↦ importBelow src o (src.size + 1) t x p := by
    refine w.within_eq (f := fun n x t p ↦ importBelow src o n t x p) (fun n m y ih ↦ ?_) hx
      (Nat.le_add_right ..) (by omega)
    funext t p
    rw [importBelow, importBelow, importChildren_eq]
    refine List.foldl_ext _ _ _ fun u e he ↦ ?_
    obtain ⟨i, hi, -⟩ := mem_copies.1 he
    exact congrFun (congrFun (ih e.1 (List.mem_of_getElem? hi)) u) e.2
  rw [congrFun (congrFun hstep t) p, importBelow]

/-- What is on the stack is copied one after another. -/
theorem copyWith_eq (w : src.WellFormed) (o : Overlay) {stack : List (NodeId × NodeId)}
    (hs : ∀ e ∈ stack, e.1 < src.size)
    (hn : (stack.flatMap fun e ↦ src.preorder e.1).length ≤ n) (t : Tree) :
    copyWith src o n t stack =
      stack.foldl (fun t e ↦ importBelow src o src.size t e.1 e.2) t := by
  induction n generalizing stack t with
  | zero =>
    cases stack with
    | nil => rfl
    | cons e stack =>
      rw [List.flatMap_cons, w.preorder_eq (hs e List.mem_cons_self)] at hn
      cases hn
  | succ n ih =>
    cases stack with
    | nil => rfl
    | cons e stack =>
      have he := hs e List.mem_cons_self
      rw [List.foldl_cons, w.importBelow_eq o he, ← List.foldl_append, copyWith,
        importChildren_eq]
      refine ih (fun e' he' ↦ ?_) ?_ _
      · rcases List.mem_append.1 he' with he' | he'
        · obtain ⟨i, hi, -⟩ := mem_copies.1 he'
          exact w.child_lt (List.mem_of_getElem? hi)
        · exact hs e' (List.mem_cons_of_mem e he')
      · -- the copies are stacked the last first, which leaves as much to do
        have hperm : (((src.children e.1).zip
            (List.range' t.size (src.children e.1).length)).reverse.flatMap
              fun e ↦ src.preorder e.1).Perm ((src.children e.1).flatMap src.preorder) := by
          refine ((List.reverse_perm _).flatMap_right _).trans (.of_eq ?_)
          rw [← List.flatMap_map Prod.fst, List.map_fst_zip]
          exact Nat.le_of_eq List.length_range'.symm
        rw [List.flatMap_cons, w.preorder_eq he, List.cons_append, List.length_cons,
          List.length_append] at hn
        rw [List.flatMap_append, List.length_append, hperm.length_eq]
        exact Nat.le_of_succ_le_succ hn

end WellFormed

structure IsCopy (t : Tree) (x : NodeId) (v : Tree) (y : NodeId) : Prop where
  wellFormed : v.WellFormed
  top : v.parent? y = none
  same : v.sameSubtree y t x = true
  symm : t.sameSubtree x v y = true

theorem isCopy_of_map (wt : t.WellFormed) (wu : u.WellFormed) (hx : x < t.size)
    (hlt : f x < u.size) (htop : u.parent? (f x) = none)
    (hchildren : ∀ y, t.Above x y → u.children (f y) = (t.children y).map f)
    (hcontent : ∀ y, t.Above x y → u.content (f y) = t.content y) : IsCopy t x u (f x) := by
  have hsame : u.sameSubtree (f x) t x = true :=
    sameWithin_of_map wt wu hchildren (fun y hy ↦ hcontent y hy ▸ Content.same_refl _) hlt
      (Nat.le_add_right ..)
  exact ⟨wu, htop, hsame, sameSubtree_symm wu wt hlt hx hsame⟩

theorem WellFormed.isCopy_subtreeCopy (w : t.WellFormed) (hx : x < t.size) :
    IsCopy t x (t.subtreeCopy x) root := by
  obtain ⟨g, hg, h⟩ := grafted_subtreeCopy w hx
  have hw := h.wellFormed
  rw [← hg]
  exact isCopy_of_map w hw hx (hg ▸ hw.root_lt) (hg ▸ hw.root_top)
    (fun y hy ↦ h.children y (inside_singleton.2 hy)) fun y ↦ h.content_subtreeCopy hg

theorem WellFormed.isCopy_importSubtree (w : t.WellFormed) (wu : u.WellFormed) (hx : x < t.size) :
    IsCopy t x (u.importSubtree t x).1 (u.importSubtree t x).2 := by
  obtain ⟨g, h⟩ := copied_importSubtree w wu hx
  have hg : g x = (u.importSubtree t x).2 := h.top
  rw [← hg]
  exact isCopy_of_map w h.wellFormed hx (h.fresh x .refl).2 (h.top ▸ h.detached) h.children
    h.content

/-- The tree `v` has a node for each node of `t`, in pre-order, and no other. Overlays are as their
places say. -/
structure IsCompact (t v : Tree) (o : Nat → Overlay) : Prop where
  wellFormed : v.WellFormed
  same : v.sameContent t = true
  symm : t.sameContent v = true
  size : v.size = t.live.length
  live : v.live = List.range v.size
  node : ∀ i x, t.live[i]? = some x →
    v.content i = t.content x ∧ v.path i = t.path x ∧ v.overlay i = o i

theorem Transcribes.isCompact (h : Transcribes t t.content o t.live u) (w : t.WellFormed) :
    IsCompact t u o := by
  have wu := h.wellFormed
  have hm : Mirrors t.place t u :=
    ⟨h.embeds w, fun x hx ↦ h.content x hx ▸ Content.same_refl _⟩
  have hsame := hm.sameContent w wu
  refine ⟨wu, hsame, sameSubtree_symm wu w wu.root_lt w.root_lt hsame, h.size, ?_, fun i x hi ↦ ?_⟩
  · rw [hm.live_map w wu, w.map_place_live, h.size]
  · have hx := List.mem_of_getElem? hi
    obtain rfl : t.place x = i := by
      obtain ⟨hlt, rfl⟩ := List.getElem?_eq_some_iff.1 hi
      exact w.nodup_live.idxOf_getElem i hlt
    exact ⟨h.content x hx, hm.path_map w wu hx, h.overlay x hx⟩

theorem WellFormed.isCompact_rebuild (w : t.WellFormed) (o : Nat → Overlay) :
    IsCompact t (t.rebuild o) o := (w.transcribes_rebuild o).isCompact w

/-- One more node in a store that is rebuilt. It goes after the children that the copy of its parent
has so far. The copies are found in a map from the originals. -/
def rebuildStep (t : Tree) (o : Nat → Overlay) (s : Tree × (NodeId → Option NodeId))
    (e : NodeId × Nat) : Tree × (NodeId → Option NodeId) :=
  let (u, copy) := s.1.alloc (t.content e.1) (o e.2)
  (match (t.parent? e.1).bind s.2 with
    | some p => u.appendChild p copy
    | none => u,
    Function.update s.2 e.1 (some copy))

def rebuildEach (t : Tree) (o : Nat → Overlay) : Tree :=
  ((t.live.tail.zipIdx 1).foldl (t.rebuildStep o)
    (rootedAt (t.content root) (o 0), Function.update (fun _ ↦ none) root (some root))).1

structure Rebuilding (t : Tree) (o : Nat → Overlay) (pre : List NodeId)
    (s : Tree × (NodeId → Option NodeId)) : Prop extends Transcribes t t.content o pre s.1 where
  position : s.1.position root = 0
  copies : ∀ x ∈ pre, s.2 x = some (t.place x)

theorem Rebuilding.first (w : t.WellFormed) (o : Nat → Overlay) : Rebuilding t o [root]
    (rootedAt (t.content root) (o 0), Function.update (fun _ ↦ none) root (some root)) where
  toTranscribes := .rootedAt w rfl
  position := rfl
  copies x hx := by
    rw [List.mem_singleton.1 hx, w.place_root]
    exact Function.update_self root (some root) fun _ ↦ none

theorem Rebuilding.step {pre post : List NodeId} {s : Tree × (NodeId → Option NodeId)}
    (h : Rebuilding t o pre s) (w : t.WellFormed) (hlive : t.live = pre ++ x :: post)
    (hr : x ≠ root) : Rebuilding t o (pre ++ [x]) (t.rebuildStep o s (x, pre.length)) := by
  have hx : x ∈ t.live := hlive ▸ List.mem_append_right pre List.mem_cons_self
  obtain ⟨p, hp, -⟩ := w.exists_parent_of_live hx hr
  have hpm := (w.passed_of_split hlive).1 p hp
  obtain ⟨hplace, hadd⟩ := h.addLast w hlive hp (t.content x)
  rw [Function.update_eq_self] at hadd
  have hs : t.rebuildStep o s (x, pre.length) =
      (s.1.addLast (t.place p) (t.content x) (o (t.place x)),
        Function.update s.2 x (some (t.place x))) := by
    rw [hplace, ← h.size, rebuildStep, hp, Option.bind_some, h.copies p hpm]
    rfl
  rw [hs]
  refine ⟨hadd, ?_, fun y hy ↦ ?_⟩
  · rw [h.wellFormed.position_root_addLast, h.position]
    exact h.size ▸ w.place_lt_length ⟨_, hlive.symm⟩ hpm
  · rcases List.mem_append.1 hy with hy | hy
    · have hyx : y ≠ x := (List.nodup_append.1 (hlive ▸ w.nodup_live)).2.2 y hy x
        List.mem_cons_self
      exact (Function.update_of_ne hyx ..).trans (h.copies y hy)
    · rw [List.mem_singleton.1 hy]
      exact Function.update_self ..

namespace WellFormed

theorem rebuilding (w : t.WellFormed) (o : Nat → Overlay) :
    ∃ copies, Rebuilding t o t.live (t.rebuildEach o, copies) := by
  suffices hall : ∀ pre post, t.live.tail = pre ++ post → Rebuilding t o (root :: pre)
      ((pre.zipIdx 1).foldl (t.rebuildStep o)
        (rootedAt (t.content root) (o 0), Function.update (fun _ ↦ none) root (some root))) by
    have h := hall _ [] (List.append_nil _).symm
    rw [← w.live_eq] at h
    exact ⟨_, h⟩
  -- on the nodes that have been passed after the root
  intro pre
  induction pre using List.reverseRecOn with
  | nil => exact fun _ _ ↦ .first w o
  | append_singleton pre x ih =>
    intro post hpost
    rw [List.append_assoc, List.singleton_append] at hpost
    have hx : x ∈ t.live.tail := hpost ▸ List.mem_append_right pre List.mem_cons_self
    rw [List.zipIdx_append, List.foldl_append, Nat.add_comm 1]
    exact (ih _ hpost).step w (w.live_eq.trans (congrArg (root :: ·) hpost))
      (w.mem_live_tail.1 hx).2

theorem isCompact_rebuildEach (w : t.WellFormed) (o : Nat → Overlay) :
    IsCompact t (t.rebuildEach o) o := by
  obtain ⟨_, h⟩ := w.rebuilding o
  exact h.toTranscribes.isCompact w

/-- A tree whose root has no place among siblings is rebuilt at once as it is node by node. -/
theorem rebuildEach_eq (w : t.WellFormed) (hr : t.position root = 0) (o : Nat → Overlay) :
    t.rebuildEach o = t.rebuild o := by
  obtain ⟨_, h⟩ := w.rebuilding o
  refine h.toTranscribes.eq (w.transcribes_rebuild o) w (h.position.trans ?_)
  have hroot := position_rebuild o w.root_mem_live
  rw [w.place_root] at hroot
  rw [hroot, hr]

end WellFormed

theorem rebuildEach_foldl_perform (r : Content) (d : Overlay) {ops : List Operation}
    (h : (rootedAt r d).Allows ops) (o : Nat → Overlay) :
    (ops.foldl Operation.perform (rootedAt r d)).rebuildEach o =
      (ops.foldl Operation.perform (rootedAt r d)).rebuild o :=
  ((wellFormed_rootedAt r d).foldl_perform h).rebuildEach_eq
    ((wellFormed_rootedAt r d).position_root_foldl_perform h) o

/-- A node of the rebuilt tree comes from its own place. -/
theorem base?_toDelta_iff (w : t.WellFormed) {i : Nat} :
    Merge.base? t.toDelta n = some i ↔ n = i ∧ n < t.toDelta.size := by
  have h := w.isCompact_rebuild fun i ↦ .changed { base := some i }
  rw [Merge.base?, delta?]
  by_cases hn : n < t.toDelta.size
  · have hl : n < t.live.length := h.size ▸ hn
    rw [toDelta, (h.node n _ (List.getElem?_eq_getElem hl)).2.2]
    exact Option.some_inj.trans (and_iff_left hn).symm
  · rw [overlay_of_size_le (Nat.le_of_not_lt hn)]
    exact ⟨fun he ↦ (Option.some_ne_none i he.symm).elim, fun he ↦ absurd he.2 hn⟩

theorem basePath_toDelta (w : t.WellFormed) {α : Type} [Score α] (config : Config α) (a b : Tree)
    {i : Nat} (h : Merge.base? t.toDelta n = some i) :
    (Merge.start config t a b).basePaths[i]? = some (t.toDelta.path n) := by
  obtain ⟨rfl, hn⟩ := (base?_toDelta_iff w).1 h
  have hc := w.isCompact_rebuild fun i ↦ .changed { base := some i }
  have hl : n < t.live.length := hc.size ▸ hn
  have hx := List.getElem?_eq_getElem hl
  show (t.live.map t.path)[n]? = _
  rw [List.getElem?_map, hx, toDelta, (hc.node n _ hx).2.1]
  rfl

/-- Whatever the places in the store, copies keep contents, shape and order, however they are made,
and what a node of a rebuilt tree comes from is its place in the pre-order. -/
theorem copies_agree (w : t.WellFormed) {α : Type} [Score α] (config : Config α) (a b : Tree) :
    (∀ x < t.size,
      t.walk t.size [x] = t.preorder x ∧
      t.subtreeCopy x = copyWith t .plain t.size (leaf (t.content x)) [(x, root)] ∧
      IsCopy t x (t.subtreeCopy x) root ∧
      ∀ u : Tree, u.WellFormed →
        u.importSubtree t x =
          (copyWith t (u.overlay root).blank t.size (u.importNode t x).1 [(x, u.size)], u.size) ∧
        IsCopy t x (u.importSubtree t x).1 (u.importSubtree t x).2) ∧
    (∀ o, IsCompact t (t.rebuildEach o) o ∧
      (t.position root = 0 → t.rebuildEach o = t.rebuild o)) ∧
    IsCompact t t.toPlain (fun _ ↦ .plain) ∧
    IsCompact t t.toDelta (fun i ↦ .changed { base := some i }) ∧
    ∀ n i, (Merge.base? t.toDelta n = some i ↔ n = i ∧ n < t.toDelta.size) ∧
      (Merge.base? t.toDelta n = some i →
        (Merge.start config t a b).basePaths[i]? = some (t.toDelta.path n)) := by
  refine ⟨fun x hx ↦ ?_, fun o ↦ ⟨w.isCompact_rebuildEach o, fun hr ↦ w.rebuildEach_eq hr o⟩,
    w.isCompact_rebuild _, w.isCompact_rebuild _,
    fun n i ↦ ⟨base?_toDelta_iff w, basePath_toDelta w config a b⟩⟩
  have hsize : ([x].flatMap t.preorder).length ≤ t.size := by
    rw [List.flatMap_singleton]
    exact w.length_preorder_le hx
  have hcopy (o : Overlay) (u : Tree) (y : NodeId) :
      copyWith t o t.size u [(x, y)] = importBelow t o t.size u x y := by
    refine w.copyWith_eq o (fun e he ↦ ?_) (by rwa [List.flatMap_singleton] at hsize ⊢) u
    rw [List.mem_singleton.1 he]
    exact hx
  refine ⟨?_, (hcopy ..).symm, w.isCopy_subtreeCopy hx,
    fun u wu ↦ ⟨?_, w.isCopy_importSubtree wu hx⟩⟩
  · rw [w.walk_eq (fun y hy ↦ List.mem_singleton.1 hy ▸ hx) hsize, List.flatMap_singleton]
  · rw [hcopy, importSubtree_eq wu.root_lt]
    rfl

/-- The node made last comes before the one that was there, and a node that has left the tree keeps
its place in the store. -/
theorem copies_agree_shuffled :
    let t₀ := leaf { label := "description" }
    let ops : List Operation :=
      [.addChild root { label := "loop" }, .addChild root { label := "call" },
        .addChild 1 { label := "manipulate" }, .detach 2, .alloc { label := "stop" } .plain,
        .insertChild 1 0 4]
    let t := ops.foldl Operation.perform t₀
    t₀.Allows ops ∧ t.live = [root, 1, 4, 3] ∧ t.size = 5 ∧
      IsCopy t 1 (t.subtreeCopy 1) root ∧ IsCopy t 1 (t₀.importSubtree t 1).1 1 ∧
      t.rebuildEach (fun _ ↦ .plain) = t.toPlain ∧ t.toDelta.live = List.range 4 ∧
      (Merge.start (Config.standard : Config Rat) t t₀ t₀).basePaths[2]? =
        some (t.toDelta.path 2) := by
  intro t₀ ops t
  have hops : t₀.Allows ops := by decide +kernel
  have w₀ : t₀.WellFormed := wellFormed_rootedAt _ _
  obtain ⟨hbelow, heach, -, hdelta, hbase⟩ :=
    copies_agree (w₀.foldl_perform hops) (Config.standard : Config Rat) t₀ t₀
  obtain ⟨-, -, hcopy, himport⟩ := hbelow 1 (by decide +kernel)
  have hlive : t.toDelta.live = List.range 4 :=
    hdelta.live.trans (congrArg List.range (by decide +kernel))
  exact ⟨hops, by decide +kernel, by decide +kernel, hcopy, (himport t₀ w₀).2,
    (heach _).2 (w₀.position_root_foldl_perform hops), hlive, (hbase 2 2).2 (by decide +kernel)⟩

end FlowMerge.Tree
