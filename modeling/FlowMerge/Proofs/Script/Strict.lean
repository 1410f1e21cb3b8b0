import FlowMerge.Proofs.Script.Account

namespace FlowMerge

namespace Tree

variable {t src : Tree} {p c id copy : NodeId} {i n : Nat} {a : Overlay}

def join? (t : Tree) (p i c : NodeId) : Option Tree :=
  if t.parent? c = none ∧ c ≠ root then t.insertChild? p i c else none

theorem join?_eq (htop : t.parent? c = none) (hr : c ≠ root) (hi : i ≤ (t.children p).length) :
    t.join? p i c = some (t.insertChild p i c) := by
  rw [join?, if_pos ⟨htop, hr⟩, insertChild?, if_pos hi]

def importChildren? (src : Tree) (id : NodeId) (a : Overlay) (t : Tree) (copy : NodeId) :
    Option (Tree × List (NodeId × NodeId)) :=
  (src.children id).foldlM (fun (t, copies) c ↦
    let (t, k) := t.alloc (src.content c) a
    (t.join? copy (t.children copy).length k).map fun t ↦ (t, (c, k) :: copies)) (t, [])

def importBelow? (src : Tree) (a : Overlay) : Nat → Tree → NodeId → NodeId → Option Tree
  | 0, t, _, _ => some t
  | n + 1, t, id, copy => do
    let (t, copies) ← importChildren? src id a t copy
    copies.foldlM (fun t c ↦ importBelow? src a n t c.1 c.2) t

def importSubtree? (t src : Tree) (id : NodeId) : Option (Tree × NodeId) :=
  let (t, copy) := t.importNode src id
  (importBelow? src (t.overlay root).blank src.size t id copy).map fun t ↦ (t, copy)

theorem importChildren?_eq (src : Tree) (id : NodeId) (a : Overlay) (copy : NodeId)
    (h : 0 < t.size) : importChildren? src id a t copy = some (importChildren src id a t copy) ∧
      0 < (importChildren src id a t copy).1.size := by
  refine foldl_induction (P := fun cs (z : Tree × List (NodeId × NodeId)) ↦
    cs.foldlM _ (t, []) = some z ∧ 0 < z.1.size) ⟨rfl, h⟩ fun pre c post z _ hz ↦ ?_
  obtain ⟨hz, hpos⟩ := hz
  have htop : (z.1.alloc (src.content c) a).1.parent? z.1.size = none := by
    rw [parent?_alloc, parent?_of_size_le (Nat.le_refl _)]
  rw [foldlM_snoc hz]
  refine ⟨?_, ?_⟩
  · exact congrArg (Option.map fun t ↦ (t, (c, z.1.size) :: z.2))
      (join?_eq htop (Nat.ne_of_gt hpos) (Nat.le_refl _))
  · show 0 < ((z.1.alloc (src.content c) a).1.appendChild copy z.1.size).size
    rw [appendChild, size_insertChild, size_alloc]
    exact Nat.succ_pos _

theorem importBelow?_eq (src : Tree) (a : Overlay) (n : Nat) (id copy : NodeId) (h : 0 < t.size) :
    importBelow? src a n t id copy = some (importBelow src a n t id copy) ∧
      0 < (importBelow src a n t id copy).size := by
  induction n generalizing t id copy with
  | zero => exact ⟨rfl, h⟩
  | succ n ih =>
    obtain ⟨hc, hpos⟩ := importChildren?_eq src id a copy h
    rw [importBelow?, hc, importBelow]
    generalize importChildren src id a t copy = z at hpos
    refine foldl_induction (P := fun cs u ↦ cs.foldlM
      (fun t (c : NodeId × NodeId) ↦ importBelow? src a n t c.1 c.2) z.1 = some u ∧ 0 < u.size)
      ⟨rfl, hpos⟩ fun pre c post u _ hu ↦ ?_
    obtain ⟨hu, hpos⟩ := hu
    rw [foldlM_snoc hu]
    exact ih c.1 c.2 hpos

theorem importSubtree?_eq (t src : Tree) (id : NodeId) :
    t.importSubtree? src id = some (t.importSubtree src id) := by
  have hpos : 0 < (t.importNode src id).1.size := by
    rw [importNode, size_alloc]
    exact Nat.succ_pos _
  exact congrArg (Option.map fun u ↦ (u, t.size)) (importBelow?_eq src _ src.size id _ hpos).1

end Tree

namespace Script

open FlowMerge.Tree

variable {t d d' : Tree} {s : Script} {c : Change} {node : NodeId} {steps : List Step}
  {ids out : List NodeId} {n : Nat} {first : NodeId → Content}

def attach? (d : Tree) (c : Change) (node : NodeId) : Option Tree := do
  let p ← c.new
  let above ← p.parent?
  let i ← p.getLast?
  let parent ← (d.resolve above).toOption
  d.join? parent i node

def applyAddition? (d : Tree) (s : Step) : Option Tree :=
  match s.1.kind, s.2 with
  | .move, some node => attach? d s.1 node
  | .insertion, _ | .subtreeInsertion, _ => do
    let payload ← s.1.payload
    let (d, top) ← d.importSubtree? payload Tree.root
    attach? (d.markSubtree top .inserted) s.1 top
  | _, _ => some d

/-- Applies a script and checks every attachment. -/
def patch? (t : Tree) (script : Script) : Option Tree := do
  let d := pristine t
  let targets ← (script.mapM (target d)).toOption
  let steps := script.zip targets
  let d := steps.foldl applyUpdate d
  let (d, _) ← (steps.foldlM applyMove (d, 0)).toOption
  let d ← (steps.foldlM applyDeletion d).toOption
  steps.foldlM applyAddition? d

theorem attach?_eq (h : attach d c node = .ok d') (htop : d.parent? node = none)
    (hr : node ≠ Tree.root) : attach? d c node = some d' := by
  obtain ⟨r, i, q, hnew, hq, hi, rfl⟩ := attach_ok h
  have hparent : Path.parent? (r ++ [i]) = some r := by simp [Path.parent?]
  rw [attach?, hnew]
  simp only [bind, Option.bind, hparent, List.getLast?_concat, hq, Except.toOption]
  exact join?_eq htop hr hi

theorem applyAddition?_insertion {u : Tree} {a : Option NodeId} (h : c.kind.isInsertion = true)
    (hu : c.payload = some u) : applyAddition? d (c, a) =
      attach? ((d.importSubtree u root).1.markSubtree d.size .inserted) c d.size := by
  rw [ChangeKind.isInsertion, Bool.or_eq_true, beq_iff_eq, beq_iff_eq] at h
  rcases h with h | h <;> simp only [applyAddition?, h, hu, importSubtree?_eq] <;> rfl

theorem applyAddition?_eq {s : Step} (h : Placing n first ids (moveTargets (s :: steps)) d)
    (hpayload : ∀ u, s.1.payload = some u → u.WellFormed) (hs : applyAddition d s = .ok d') :
    applyAddition? d s = some d' := by
  have w := h.wellFormed
  rw [moveTargets_cons] at h
  rcases applyAddition_ok hs with ⟨hnot, hi, rfl⟩ | ⟨node, hk, hnode, hd⟩ | ⟨u, hi, hu, hd⟩
  · rw [applyAddition?]
    split
    · next hk hnode => exact absurd ⟨hk, _, hnode⟩ hnot
    · next hk => rw [hk] at hi; cases hi
    · next hk => rw [hk] at hi; cases hi
    · rfl
  · rw [moveTargets_of_move hk hnode] at h
    obtain ⟨htop, hr, -⟩ := h.waiting node List.mem_cons_self
    rw [applyAddition?, hk, hnode]
    exact attach?_eq hd htop hr
  · have hsprout := sprouted_importSubtree w (hpayload u hu) (h.recorded root w.root_lt)
    obtain ⟨c, a⟩ := s
    rw [applyAddition?_insertion hi hu]
    exact attach?_eq hd (hsprout.detached w) (Nat.ne_of_gt w.root_lt)

theorem additions?_eq (h : Placing n first ids (moveTargets steps) d)
    (hpayload : ∀ s ∈ steps, ∀ u, s.1.payload = some u → u.WellFormed)
    (hrun : steps.foldlM applyAddition d = .ok d') :
    steps.foldlM applyAddition? d = some d' := by
  induction steps generalizing d with
  | nil => exact congrArg some (Except.ok.inj hrun)
  | cons s steps ih =>
    obtain ⟨u, hs, hrest⟩ := foldlM_cons_ok hrun
    have hsound := hpayload s List.mem_cons_self
    rw [List.foldlM_cons, applyAddition?_eq h hsound hs]
    exact ih (h.addition hsound hs).1 (fun s hs ↦ hpayload s (List.mem_cons_of_mem _ hs)) hrest

theorem patch?_eq (w : t.WellFormed)
    (hpayload : ∀ c ∈ s, ∀ u, c.payload = some u → u.WellFormed) (h : patch t s = .ok d) :
    patch? t s = some d := by
  obtain ⟨htargets, d₁, k, d₂, h₁, h₂, h₃⟩ := patch_ok h
  have hadd := additions?_eq (placing_of_moves w h₁ h₂).1 (wellFormed_of_mem_aimed hpayload) h₃
  have hz : s.zip (s.map (aim (pristine t))) = aimed (pristine t) s :=
    List.map_prod_left_eq_zip.symm
  rw [patch?, mapM_target s htargets]
  simp only [Except.toOption, bind, Option.bind, hz, h₁, h₂]
  exact hadd

end Script

end FlowMerge
