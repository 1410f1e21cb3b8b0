import FlowMerge.Proofs.Tree.Copies
import FlowMerge.Script.Patch

namespace FlowMerge

namespace Tree

def notes (t : Tree) (x : NodeId) : Option (Option Nat × Updates) :=
  (t.delta? x).map fun d ↦ (d.base, d.updates)

variable {t : Tree} {p c x : NodeId}

theorem notes_modifyDelta (t : Tree) (id : NodeId) {f : Delta → Delta}
    (hf : ∀ d, (f d).base = d.base ∧ (f d).updates = d.updates) (x : NodeId) :
    (t.modifyDelta id f).notes x = t.notes x := by
  rw [notes, delta?_modifyDelta, notes]
  split
  · rw [Option.map_map]
    refine congrArg (Option.map · _) (funext fun d ↦ ?_)
    rw [Function.comp_apply, (hf d).1, (hf d).2]
  · rfl

theorem mark_modifyDelta (t : Tree) (id : NodeId) {f : Delta → Delta}
    (hf : ∀ d, (f d).mark = d.mark) (x : NodeId) : (t.modifyDelta id f).mark x = t.mark x := by
  rw [mark, delta?_modifyDelta, mark]
  split
  · rw [Option.map_map]
    refine congrArg (fun g : Delta → Mark ↦ (Option.map g _).getD _) (funext fun d ↦ hf d)
  · rfl

theorem notes_addPlaceholder (t : Tree) (id c x : NodeId) :
    (t.addPlaceholder id c).notes x = t.notes x := by
  apply notes_modifyDelta
  exact fun _ ↦ ⟨rfl, rfl⟩

theorem mark_addPlaceholder (t : Tree) (id c x : NodeId) :
    (t.addPlaceholder id c).mark x = t.mark x := by
  apply mark_modifyDelta
  exact fun _ ↦ rfl

theorem SameData.notes {u : Tree} (h : SameData t u) (x : NodeId) : t.notes x = u.notes x := by
  rw [Tree.notes, h.delta?, Tree.notes]

theorem notes_of_delta? {d : Delta} (h : t.delta? x = some d) :
    t.notes x = some (d.base, d.updates) := by rw [notes, h]; rfl

end Tree

namespace Script

open FlowMerge.Tree

variable {t d d' d'' : Tree} {c : Change} {x y : NodeId} {ids ids' : List NodeId}
  {steps : List Step}

theorem pristine_spec (w : t.WellFormed) : SameShape (pristine t) t.toDelta ∧
    (∀ x, (pristine t).content x = t.toDelta.content x) ∧
    ∀ x < t.live.length, ∃ i, (pristine t).delta? x = some { base := some x, origin := i } := by
  have hstart : SameShape t.toDelta t.toDelta ∧
      (∀ x, t.toDelta.content x = t.toDelta.content x) ∧
      ∀ x < t.live.length, ∃ i, t.toDelta.delta? x = some { base := some x, origin := i } := by
    refine ⟨.refl _, fun _ ↦ rfl, fun x hx ↦ ⟨none, ?_⟩⟩
    obtain ⟨y, hy, rfl⟩ := w.exists_place hx
    rw [delta?, toDelta, overlay_rebuild _ hy]
    rfl
  refine List.foldlRecOn _ _ (motive := fun d : Tree ↦ SameShape d t.toDelta ∧
    (∀ x, d.content x = t.toDelta.content x) ∧
    ∀ x < t.live.length, ∃ i, d.delta? x = some { base := some x, origin := i }) hstart ?_
  rintro d ⟨hs, hc, hd⟩ id -
  refine ⟨(sameShape_modifyDelta d id _).trans hs, fun x ↦ ?_, fun x hx ↦ ?_⟩
  · rw [content_modifyDelta, hc]
  · obtain ⟨i, hi⟩ := hd x hx
    rw [delta?_modifyDelta, hi]
    split
    · exact ⟨_, rfl⟩
    · exact ⟨_, rfl⟩

theorem wellFormed_pristine (w : t.WellFormed) : (pristine t).WellFormed :=
  (pristine_spec w).1.wellFormed (w.rebuild _)

theorem size_pristine (w : t.WellFormed) : (pristine t).size = t.live.length := by
  rw [(pristine_spec w).1.size, toDelta, size_rebuild]

theorem children_pristine (w : t.WellFormed) (hx : x ∈ t.live) :
    (pristine t).children (t.place x) = (t.children x).map t.place := by
  rw [(pristine_spec w).1.children, toDelta, children_rebuild _ hx]

theorem parent?_pristine (w : t.WellFormed) (hx : x ∈ t.live) :
    (pristine t).parent? (t.place x) = (t.parent? x).map t.place := by
  rw [(pristine_spec w).1.parent?, toDelta, parent?_rebuild _ hx]

theorem content_pristine (w : t.WellFormed) (hx : x ∈ t.live) :
    (pristine t).content (t.place x) = t.content x := by
  rw [(pristine_spec w).2.1, toDelta, content_rebuild _ hx]

theorem resolve_pristine (w : t.WellFormed) (hx : x ∈ t.live) :
    (pristine t).resolve (t.path x) = .ok (t.place x) :=
  Embeds.resolve_path ⟨w.place_root, fun _ ↦ children_pristine w⟩ w hx

def aim (d : Tree) (c : Change) : Option NodeId :=
  match target d c with
  | .ok x => x
  | .error _ => none

theorem mapM_target (cs : Script) (h : ∀ c ∈ cs, target d c = .ok (aim d c)) :
    cs.mapM (target d) = .ok (cs.map (aim d)) := by
  induction cs with
  | nil => rfl
  | cons c cs ih =>
    rw [List.mapM_cons, h c List.mem_cons_self, ih fun c' hc' ↦ h c' (List.mem_cons_of_mem _ hc')]
    rfl

theorem target_of_insertion (hc : c.kind.isInsertion = true) : target d c = .ok none := by
  rw [target, if_pos hc]

theorem target_of_path (w : t.WellFormed) (hx : x ∈ t.live) (hc : c.kind.isInsertion = false)
    (ho : c.old = some (t.path x)) : target (pristine t) c = .ok (some (t.place x)) := by
  rw [target, hc, if_neg Bool.false_ne_true, ho]
  simp only [resolve_pristine w hx]
  rfl

theorem aim_eq {a : Option NodeId} (h : target d c = .ok a) : aim d c = a := by
  rw [aim, h]

def aimed (d : Tree) (cs : Script) : List Step := cs.map fun c ↦ (c, aim d c)

theorem patch_eq (cs : Script) (h : ∀ c ∈ cs, target (pristine t) c = .ok (aim (pristine t) c)) :
    patch t cs = (do
      let d := (aimed (pristine t) cs).foldl applyUpdate (pristine t)
      let (d, _) ← (aimed (pristine t) cs).foldlM applyMove (d, 0)
      let d ← (aimed (pristine t) cs).foldlM applyDeletion d
      (aimed (pristine t) cs).foldlM applyAddition d) := by
  have hz : cs.zip (cs.map (aim (pristine t))) = aimed (pristine t) cs :=
    List.map_prod_left_eq_zip.symm
  rw [patch, mapM_target cs h]
  show (do
      let d := (cs.zip (cs.map (aim (pristine t)))).foldl applyUpdate (pristine t)
      let (d, _) ← (cs.zip (cs.map (aim (pristine t)))).foldlM applyMove (d, 0)
      let d ← (cs.zip (cs.map (aim (pristine t)))).foldlM applyDeletion d
      (cs.zip (cs.map (aim (pristine t)))).foldlM applyAddition d) = _
  rw [hz]

/-- What changes of fields may do to a tree. Where they are sound the records keep up with the
contents. -/
structure Revised (sound : Prop) (d d' : Tree) : Prop where
  shape : SameShape d' d
  delta : ∀ x y, d.delta? x = some y → y.Settled → ∃ z, d'.delta? x = some z ∧
    z.base = y.base ∧ z.Settled ∧ (sound →
      ∀ c, y.updates.Records c (d.content x) → z.updates.Records c (d'.content x))

variable {sound : Prop}

theorem Revised.refl (d : Tree) : Revised sound d d :=
  ⟨.refl d, fun _ y h hs ↦ ⟨y, h, rfl, hs, fun _ _ hc ↦ hc⟩⟩

theorem Revised.trans (h : Revised sound d d') (h' : Revised sound d' d'') :
    Revised sound d d'' := by
  refine ⟨h'.shape.trans h.shape, fun x y hy hs ↦ ?_⟩
  obtain ⟨z, hz, hbase, hzs, hrec⟩ := h.delta x y hy hs
  obtain ⟨z', hz', hbase', hzs', hrec'⟩ := h'.delta x z hz hzs
  exact ⟨z', hz', hbase'.trans hbase, hzs', fun hl c hc ↦ hrec' hl c (hrec hl c hc)⟩

theorem content_updateField (node : NodeId) (d : Tree) (e : String × Update) (x : NodeId) :
    (updateField node d e).content x = if x = node ∧ x < d.size then
      (d.content x).setField e.1 e.2.new else d.content x := by
  rw [updateField, recordUpdate, content_modifyDelta, content_modifyContent]

theorem delta?_updateField (node : NodeId) (d : Tree) (e : String × Update) (x : NodeId) :
    (updateField node d e).delta? x = if x = node then
      (d.delta? x).map (·.record e.1 ⟨(d.content node).field e.1, e.2.new⟩) else d.delta? x := by
  rw [updateField, recordUpdate, delta?_modifyDelta, delta?_modifyContent]

theorem revised_updateField (node : NodeId) (d : Tree) (e : String × Update)
    (he : sound → e.1 = Content.labelKey → e.2.new ≠ none) :
    Revised sound d (updateField node d e) := by
  refine ⟨(sameShape_recordUpdate _ node e.1 _).trans (sameShape_modifyContent d node _),
    fun x y hy hs ↦ ?_⟩
  rw [delta?_updateField, content_updateField, hy]
  by_cases hx : x = node
  · subst hx
    rw [if_pos rfl, if_pos ⟨rfl, lt_size_of_delta? hy⟩]
    exact ⟨_, rfl, y.base_record .., hs.record ..,
      fun hl c hc ↦ Content.records_record hc (he hl)⟩
  · rw [if_neg hx, if_neg fun h ↦ hx h.1]
    exact ⟨y, rfl, rfl, hs, fun _ c hc ↦ hc⟩

def updatesOf (x : NodeId) (steps : List Step) : Updates :=
  steps.flatMap fun s ↦ if s.1.kind = .update ∧ s.2 = some x then s.1.updates else []

theorem content_foldl_updateField (node : NodeId) (us : Updates) (d : Tree) (hx : x < d.size) :
    (us.foldl (updateField node) d).content x = if x = node then
      us.foldl (fun c e ↦ c.setField e.1 e.2.new) (d.content x) else d.content x := by
  induction us generalizing d with
  | nil => exact (ite_self _).symm
  | cons e us ih =>
    have hs : (updateField node d e).size = d.size :=
      ((sameShape_recordUpdate _ node e.1 _).trans (sameShape_modifyContent d node _)).size
    rw [List.foldl_cons, List.foldl_cons, ih _ (hs ▸ hx), content_updateField]
    by_cases hxn : x = node
    · rw [if_pos hxn, if_pos hxn, if_pos ⟨hxn, hx⟩]
    · rw [if_neg hxn, if_neg hxn, if_neg fun h ↦ hxn h.1]

theorem applyUpdate_of_update {s : Step} {node : NodeId} (hk : s.1.kind = .update)
    (hn : s.2 = some node) : applyUpdate d s = s.1.updates.foldl (updateField node) d := by
  rw [applyUpdate, hk, hn]

theorem applyUpdate_of_not {s : Step} (h : ¬ (s.1.kind = .update ∧ ∃ node, s.2 = some node)) :
    applyUpdate d s = d := by
  rw [applyUpdate]
  split
  · next hk hn => exact absurd ⟨hk, _, hn⟩ h
  · rfl

theorem content_applyUpdate (s : Step) (d : Tree) (hx : x < d.size) :
    (applyUpdate d s).content x =
      (updatesOf x [s]).foldl (fun c e ↦ c.setField e.1 e.2.new) (d.content x) := by
  rw [updatesOf, List.flatMap_singleton]
  by_cases h : s.1.kind = .update ∧ ∃ node, s.2 = some node
  · obtain ⟨hk, node, hn⟩ := h
    rw [applyUpdate_of_update hk hn, content_foldl_updateField node _ d hx]
    by_cases hxn : x = node
    · rw [if_pos hxn, if_pos ⟨hk, hxn ▸ hn⟩]
    · rw [if_neg hxn, if_neg]
      · rfl
      · rintro ⟨-, hx'⟩
        exact hxn (Option.some_inj.1 (hx'.symm.trans hn))
  · rw [applyUpdate_of_not h, if_neg fun h' ↦ h ⟨h'.1, x, h'.2⟩]
    rfl

theorem revised_applyUpdate (s : Step) (d : Tree)
    (hs : sound → ∀ e ∈ s.1.updates, e.1 = Content.labelKey → e.2.new ≠ none) :
    Revised sound d (applyUpdate d s) := by
  by_cases h : s.1.kind = .update ∧ ∃ node, s.2 = some node
  · obtain ⟨hk, node, hn⟩ := h
    rw [applyUpdate_of_update hk hn]
    refine List.foldlRecOn _ _ (Revised.refl d) fun d' h' e he ↦ ?_
    exact h'.trans (revised_updateField node d' e fun hl ↦ hs hl e he)
  · rw [applyUpdate_of_not h]
    exact .refl d

theorem revised_foldl (steps : List Step) (d : Tree)
    (hs : sound → ∀ s ∈ steps, ∀ e ∈ s.1.updates, e.1 = Content.labelKey → e.2.new ≠ none) :
    Revised sound d (steps.foldl applyUpdate d) :=
  List.foldlRecOn _ _ (Revised.refl d) fun d' h' s hm ↦
    h'.trans (revised_applyUpdate s d' fun hl ↦ hs hl s hm)

theorem content_foldl_applyUpdate (steps : List Step) (d : Tree) (hx : x < d.size) :
    (steps.foldl applyUpdate d).content x =
      (updatesOf x steps).foldl (fun c e ↦ c.setField e.1 e.2.new) (d.content x) := by
  induction steps generalizing d with
  | nil => rfl
  | cons s steps ih =>
    have hr := @revised_applyUpdate False s d False.elim
    have hu : updatesOf x (s :: steps) = updatesOf x [s] ++ updatesOf x steps := by
      rw [updatesOf, updatesOf, updatesOf, List.flatMap_cons, List.flatMap_singleton]
    rw [List.foldl_cons, ih _ (hr.shape.size ▸ hx),
      content_applyUpdate s d hx, hu, List.foldl_append]

/-- The tree `d'` is `d` without some nodes and what is below them. They stay in the store, which
may have grown by detached nodes that come from nowhere. -/
structure Removed (ids : List NodeId) (d d' : Tree) : Prop where
  wellFormed : d'.WellFormed
  size_le : d.size ≤ d'.size
  children : ∀ x, d'.children x = (d.children x).filter fun c ↦ !ids.contains c
  parent? : ∀ x, d'.parent? x = if x ∈ ids then none else d.parent? x
  content : ∀ x < d.size, d'.content x = d.content x
  notes : ∀ x < d.size, d'.notes x = d.notes x
  fresh : ∀ x, d.size ≤ x → (d'.notes x).bind Prod.fst = none
  mark : ∀ x < d.size, (∀ i ∈ ids, ¬ d.Above i x) → d'.mark x = d.mark x

theorem notes_of_size_le (h : d.size ≤ x) : d.notes x = none := by
  rw [Tree.notes, delta?, overlay_of_size_le h]
  rfl

theorem Removed.refl (w : d.WellFormed) : Removed [] d d where
  wellFormed := w
  size_le := Nat.le_refl _
  children x := by simp
  parent? x := (if_neg List.not_mem_nil).symm
  content _ _ := rfl
  notes _ _ := rfl
  fresh x hx := by rw [notes_of_size_le hx]; rfl
  mark _ _ _ := rfl

theorem Removed.above (h : Removed ids d d') (hx : d'.Above x y) : d.Above x y := by
  refine Relation.ReflTransGen.mono (fun p c hc ↦ ?_) _ _ hx
  rw [IsParent, h.parent?] at hc
  split at hc
  · cases hc
  · exact hc

theorem Removed.trans (h : Removed ids d d') (h' : Removed ids' d' d'') :
    Removed (ids ++ ids') d d'' where
  wellFormed := h'.wellFormed
  size_le := Nat.le_trans h.size_le h'.size_le
  children x := by
    rw [h'.children, h.children, List.filter_filter]
    refine List.filter_congr fun c _ ↦ ?_
    rw [List.contains_eq_mem, List.contains_eq_mem, List.contains_eq_mem]
    simp only [List.mem_append]
    by_cases h₁ : c ∈ ids <;> by_cases h₂ : c ∈ ids' <;> simp [h₁, h₂]
  parent? x := by
    rw [h'.parent?, h.parent?]
    by_cases h₁ : x ∈ ids <;> by_cases h₂ : x ∈ ids' <;> simp [h₁, h₂]
  content x hx := (h'.content x (Nat.lt_of_lt_of_le hx h.size_le)).trans (h.content x hx)
  notes x hx := (h'.notes x (Nat.lt_of_lt_of_le hx h.size_le)).trans (h.notes x hx)
  fresh x hx := by
    by_cases hx' : x < d'.size
    · rw [h'.notes x hx', h.fresh x hx]
    · exact h'.fresh x (Nat.le_of_not_lt hx')
  mark x hx hn := by
    rw [h'.mark x (Nat.lt_of_lt_of_le hx h.size_le) fun i hi ha ↦
      hn i (List.mem_append_right _ hi) (h.above ha)]
    exact h.mark x hx fun i hi ↦ hn i (List.mem_append_left _ hi)

theorem Removed.of_detach (w : d.WellFormed) (hs : SameShape d' d)
    (hc : ∀ x < d.size, d'.content x = d.content x) (hn : ∀ x < d.size, d'.notes x = d.notes x)
    (node : NodeId) (hm : ∀ x < d.size, ¬ d.Above node x → d'.mark x = d.mark x) :
    Removed [node] d (d'.detach node) := by
  have w' := hs.wellFormed w
  have hd := sameData_detach d' node
  exact {
    wellFormed := w'.detach node
    size_le := Nat.le_of_eq (by rw [size_detach, hs.size])
    children x := by
      rw [w'.children_detach, hs.children]
      refine List.filter_congr fun c _ ↦ ?_
      rw [List.contains_cons, List.contains_nil, Bool.or_false]
      rfl
    parent? x := by
      rw [w'.parent?_detach, hs.parent?]
      simp only [List.mem_singleton]
    content x hx := by
      rw [hd.content, hc x hx]
    notes x hx := by
      rw [hd.notes, hn x hx]
    fresh x hx := by
      rw [notes_of_size_le (by rw [size_detach, hs.size]; exact hx)]
      rfl
    mark x hx hx' := by
      rw [hd.mark, hm x hx (hx' node List.mem_cons_self)] }

theorem removed_alloc (w : d.WellFormed) (c : Content) {a : Overlay}
    (ha : a.delta?.bind Delta.base = none) : Removed [] d (d.alloc c a).1 where
  wellFormed := w.alloc c a
  size_le := by rw [size_alloc]; exact Nat.le_succ _
  children x := by simp
  parent? x := by rw [parent?_alloc, if_neg List.not_mem_nil]
  content x hx := by rw [content_alloc, if_neg (Nat.ne_of_lt hx)]
  notes x hx := by rw [Tree.notes, delta?_alloc, if_neg (Nat.ne_of_lt hx), Tree.notes]
  fresh x hx := by
    rw [Tree.notes, delta?_alloc]
    split
    · cases h : a.delta? with
      | none => rfl
      | some y => rw [h] at ha; exact ha
    · rw [← Tree.notes, notes_of_size_le hx]
      rfl
  mark x hx _ := by rw [Tree.mark, delta?_alloc, if_neg (Nat.ne_of_lt hx), Tree.mark]

theorem removed_modifyDelta (w : d.WellFormed) (node : NodeId) {f : Delta → Delta}
    (hf : ∀ y, (f y).base = y.base ∧ (f y).updates = y.updates ∧ (f y).mark = y.mark) :
    Removed [] d (d.modifyDelta node f) where
  wellFormed := (sameShape_modifyDelta d node f).wellFormed w
  size_le := Nat.le_of_eq (sameShape_modifyDelta d node f).size.symm
  children x := by rw [(sameShape_modifyDelta d node f).children]; simp
  parent? x := by rw [(sameShape_modifyDelta d node f).parent?, if_neg List.not_mem_nil]
  content x _ := content_modifyDelta ..
  notes x _ := notes_modifyDelta d node (fun y ↦ ⟨(hf y).1, (hf y).2.1⟩) x
  fresh x hx := by
    rw [notes_modifyDelta d node (fun y ↦ ⟨(hf y).1, (hf y).2.1⟩), notes_of_size_le hx]
    rfl
  mark x _ _ := mark_modifyDelta d node (fun y ↦ (hf y).2.2) x

theorem Removed.modifyDelta (h : Removed ids d d') {node : NodeId} (hi : node ∈ ids)
    {f : Delta → Delta} (hf : ∀ y, (f y).base = y.base ∧ (f y).updates = y.updates) :
    Removed ids d (d'.modifyDelta node f) where
  wellFormed := (sameShape_modifyDelta d' node f).wellFormed h.wellFormed
  size_le := by rw [(sameShape_modifyDelta d' node f).size]; exact h.size_le
  children x := by rw [(sameShape_modifyDelta d' node f).children, h.children]
  parent? x := by rw [(sameShape_modifyDelta d' node f).parent?, h.parent?]
  content x hx := by rw [content_modifyDelta, h.content x hx]
  notes x hx := by rw [notes_modifyDelta d' node hf, h.notes x hx]
  fresh x hx := by rw [notes_modifyDelta d' node hf, h.fresh x hx]
  mark x hx hn := by
    have hne : x ≠ node := by
      rintro rfl
      exact hn x hi .refl
    rw [Tree.mark, delta?_modifyDelta, if_neg hne]
    exact h.mark x hx hn

/-- A phase takes out the targets of its steps, one after the other: `apply` passes over a step
without a target and gets through with any target that is attached. What `R` says of one target it
says of all. -/
theorem exists_phase {σ : Type} (tree : σ → Tree) {apply : σ → Step → Except Error σ}
    {target? : Step → Option NodeId} {R : List NodeId → σ → σ → Prop}
    (refl : ∀ z, (tree z).WellFormed → R [] z z)
    (trans : ∀ {ids ids' z z' z''}, R ids z z' → R ids' z' z'' → R (ids ++ ids') z z'')
    (removed : ∀ {ids z z'}, R ids z z' → Removed ids (tree z) (tree z'))
    (pass : ∀ z s, target? s = none → apply z s = .ok z)
    (take : ∀ z s node parent, target? s = some node → (tree z).WellFormed →
      (tree z).parent? node = some parent → ∃ z', apply z s = .ok z' ∧ R [node] z z')
    (steps : List Step) (z : σ) (w : (tree z).WellFormed)
    (hn : (steps.filterMap target?).Nodup)
    (hp : ∀ x ∈ steps.filterMap target?, (tree z).parent? x ≠ none) :
    ∃ z', steps.foldlM apply z = .ok z' ∧ R (steps.filterMap target?) z z' := by
  induction steps generalizing z with
  | nil => exact ⟨z, rfl, refl z w⟩
  | cons s steps ih =>
    cases hs : target? s with
    | none =>
      rw [List.filterMap_cons_none hs] at hn hp ⊢
      rw [List.foldlM_cons, pass z s hs]
      exact ih z w hn hp
    | some node =>
      rw [List.filterMap_cons_some hs] at hn hp ⊢
      rw [List.nodup_cons] at hn
      obtain ⟨parent, hpar⟩ := Option.ne_none_iff_exists'.1 (hp node List.mem_cons_self)
      obtain ⟨z', hstep, h⟩ := take z s node parent hs w hpar
      have hr := removed h
      -- the other targets keep their parents, as none of them is `node`
      obtain ⟨z'', hrun, h'⟩ := ih z' hr.wellFormed hn.2 fun x hx ↦ by
        rw [hr.parent?, if_neg]
        · exact hp x (List.mem_cons_of_mem _ hx)
        · rw [List.mem_singleton]
          rintro rfl
          exact hn.1 hx
      refine ⟨z'', ?_, trans h h'⟩
      rw [List.foldlM_cons, hstep]
      exact hrun

theorem notes_eq_none : d.notes x = none ↔ d.delta? x = none := Option.map_eq_none_iff

theorem removed_detachMoved (w : d.WellFormed) (k node parent : NodeId) :
    Removed [node] d (detachMoved d k node parent) := by
  have h₁ := removed_alloc w
    (revert (d.content node) ((d.delta? node).getD {}).updates)
    (a := .changed { mark := .movedAway, moveId := some k,
                     origin := ((d.delta? node).getD {}).origin }) rfl
  have h₂ := removed_modifyDelta h₁.wellFormed parent
    (f := fun y ↦ { y with placeholders := y.placeholders ++ [d.size] })
    fun _ ↦ ⟨rfl, rfl, rfl⟩
  have h₃ := Removed.of_detach h₂.wellFormed (.refl _) (fun _ _ ↦ rfl) (fun _ _ ↦ rfl) node
    fun _ _ _ ↦ rfl
  exact (h₁.trans (h₂.trans h₃)).modifyDelta (f := fun y ↦ { y with
    mark := .movedHere, moveId := some k }) List.mem_cons_self fun _ ↦ ⟨rfl, rfl⟩

theorem mark_detachMoved (d : Tree) (k node parent : NodeId) (hx : x < d.size) :
    (detachMoved d k node parent).mark x =
      if x = node ∧ (d.notes x).isSome then .movedHere else d.mark x := by
  have hdelta (c : Content) (a : Overlay) :
      (((d.alloc c a).1.addPlaceholder parent d.size).detach node).delta? x =
        (d.delta? x).map fun z ↦
          if x = parent then { z with placeholders := z.placeholders ++ [d.size] } else z := by
    rw [(sameData_detach _ _).delta?, addPlaceholder, delta?_modifyDelta, delta?_alloc,
      if_neg (Nat.ne_of_lt hx)]
    split
    · rfl
    · exact (Option.map_id' ..).symm
  show ((((d.alloc _ _).1.addPlaceholder parent d.size).detach node).modifyDelta node _).mark x = _
  rw [Tree.mark, delta?_modifyDelta, hdelta, Tree.mark, Tree.notes]
  cases d.delta? x with
  | none => simp
  | some z =>
    by_cases hn : x = node
    · simp [hn]
    · rw [if_neg hn, if_neg fun h ↦ hn h.1]
      by_cases hp : x = parent <;> simp [hp]

def Marked (ids : List NodeId) (d d' : Tree) : Prop :=
  ∀ x < d.size, d'.mark x =
    if x ∈ ids ∧ (d.notes x).isSome then .movedHere else d.mark x

theorem Marked.refl (d : Tree) : Marked [] d d := fun _ _ ↦
  (if_neg fun h ↦ absurd h.1 List.not_mem_nil).symm

theorem Marked.trans (h : Marked ids d d') (h' : Marked ids' d' d'') (hr : Removed ids d d') :
    Marked (ids ++ ids') d d'' := fun x hx ↦ by
  rw [h' x (Nat.lt_of_lt_of_le hx hr.size_le), hr.notes x hx, h x hx]
  simp only [List.mem_append, or_and_right]
  by_cases hm : x ∈ ids' ∧ (d.notes x).isSome
  · rw [if_pos hm, if_pos (.inr hm)]
  · simp only [hm, if_false, or_false]

theorem marked_detachMoved (d : Tree) (k node parent : NodeId) :
    Marked [node] d (detachMoved d k node parent) := fun x hx ↦ by
  rw [mark_detachMoved d k node parent hx]
  simp only [List.mem_singleton]

def moveTargets (steps : List Step) : List NodeId :=
  steps.filterMap fun s ↦ if s.1.kind = .move then s.2 else none

theorem moves_ok (steps : List Step) (d : Tree) (k : Nat) (w : d.WellFormed)
    (hn : (moveTargets steps).Nodup) (hp : ∀ x ∈ moveTargets steps, d.parent? x ≠ none) :
    ∃ d' k', steps.foldlM applyMove (d, k) = .ok (d', k') ∧
      Removed (moveTargets steps) d d' ∧ Marked (moveTargets steps) d d' := by
  have hpass (z : Tree × Nat) (s : Step) (hs : (if s.1.kind = .move then s.2 else none) = none) :
      applyMove z s = .ok z := by
    rw [applyMove]
    split
    · next hk hnode =>
      rw [if_pos hk, hnode] at hs
      cases hs
    · rfl
  have htake (z : Tree × Nat) (s : Step) (node parent : NodeId)
      (hs : (if s.1.kind = .move then s.2 else none) = some node)
      (hpar : z.1.parent? node = some parent) :
      applyMove z s = .ok (detachMoved z.1 (z.2 + 1) node parent, z.2 + 1) := by
    obtain ⟨hk, hnode⟩ := Option.ite_none_right_eq_some.1 hs
    simp only [applyMove, hk, hnode, hpar]
  obtain ⟨⟨d', k'⟩, hrun, h⟩ := exists_phase Prod.fst
    (R := fun ids z z' ↦ Removed ids z.1 z'.1 ∧ Marked ids z.1 z'.1)
    (fun z w ↦ ⟨.refl w, .refl z.1⟩) (fun h h' ↦ ⟨h.1.trans h'.1, h.2.trans h'.2 h.1⟩) And.left
    hpass (fun z s node parent hs w hpar ↦ ⟨_, htake z s node parent hs hpar,
      removed_detachMoved w _ node parent, marked_detachMoved z.1 _ node parent⟩)
    steps (d, k) w hn hp
  exact ⟨d', k', hrun, h⟩

theorem notes_markSubtree (d : Tree) (node : NodeId) (m : Mark) (x : NodeId) :
    (d.markSubtree node m).notes x = d.notes x := by
  rw [Tree.notes, delta?_markSubtree, Tree.notes]
  split
  · rw [Option.map_map]
    rfl
  · rfl

theorem mark_markSubtree_of_not_above (w : d.WellFormed) {node : NodeId} (hn : node < d.size)
    (m : Mark) (hx : ¬ d.Above node x) : (d.markSubtree node m).mark x = d.mark x := by
  rw [Tree.mark, delta?_markSubtree, if_neg fun h ↦ hx ((w.mem_preorder hn).1 h), Tree.mark]

theorem removed_deletion (w : d.WellFormed) {node : NodeId} (hn : node < d.size)
    (parent : NodeId) :
    Removed [node] d (((d.markSubtree node .deleted).addPlaceholder parent node).detach node) := by
  refine Removed.of_detach w ((sameShape_addPlaceholder _ parent node).trans
    (sameShape_markSubtree d node .deleted)) (fun x _ ↦ ?_) (fun x _ ↦ ?_) node fun x _ hx ↦ ?_
  · exact (content_modifyDelta ..).trans (content_markSubtree d node .deleted x)
  · rw [notes_addPlaceholder, notes_markSubtree]
  · rw [mark_addPlaceholder, mark_markSubtree_of_not_above w hn _ hx]

def deletionTargets (steps : List Step) : List NodeId :=
  steps.filterMap fun s ↦ if s.1.kind.isDeletion then s.2 else none

theorem deletions_ok (steps : List Step) (d : Tree) (w : d.WellFormed)
    (hn : (deletionTargets steps).Nodup) (hp : ∀ x ∈ deletionTargets steps, d.parent? x ≠ none) :
    ∃ d', steps.foldlM applyDeletion d = .ok d' ∧ Removed (deletionTargets steps) d d' := by
  have hpass (d : Tree) (s : Step) (hs : (if s.1.kind.isDeletion then s.2 else none) = none) :
      applyDeletion d s = .ok d := by
    rw [applyDeletion]
    split
    · next hk hnode =>
      rw [if_pos hk, hnode] at hs
      cases hs
    · rfl
  have htake (d : Tree) (s : Step) (node parent : NodeId)
      (hs : (if s.1.kind.isDeletion then s.2 else none) = some node)
      (hpar : d.parent? node = some parent) : applyDeletion d s =
        .ok (((d.markSubtree node .deleted).addPlaceholder parent node).detach node) := by
    obtain ⟨hk, hnode⟩ := Option.ite_none_right_eq_some.1 hs
    simp only [applyDeletion, hk, hnode, hpar]
  exact exists_phase id (fun _ ↦ .refl) .trans id hpass
    (fun d s node parent hs w hpar ↦ ⟨_, htake d s node parent hs hpar,
      removed_deletion w (lt_size_of_parent? hpar) parent⟩) steps d w hn hp

end Script

end FlowMerge
