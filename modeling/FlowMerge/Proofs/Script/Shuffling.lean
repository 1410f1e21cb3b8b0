import FlowMerge.Proofs.Script.Account
import FlowMerge.Proofs.Tree.Akin

namespace FlowMerge.Script

open FlowMerge.Tree

variable {t d d' e : Tree} {s s' : Script} {c : Change} {node x : NodeId} {steps steps' : List Step}

def places (c : Change) : Bool := c.kind.isInsertion || c.kind == .move

theorem foldl_applyUpdate_filter (steps : List Step) (d : Tree) :
    (steps.filter fun s ↦ s.1.kind == .update).foldl applyUpdate d =
      steps.foldl applyUpdate d := by
  rw [List.foldl_filter]
  refine congrArg (List.foldl · d steps) (funext₂ fun d s ↦ ?_)
  by_cases hk : s.1.kind = .update
  · rw [if_pos (beq_iff_eq.2 hk)]
  · rw [if_neg fun h ↦ hk (beq_iff_eq.1 h), applyUpdate_of_not fun h ↦ hk h.1]

theorem applyMove_of_not {s : Step} (h : s.1.kind ≠ .move) (z : Tree × Nat) :
    applyMove z s = .ok z := by
  rw [applyMove]
  split
  · next hk _ => exact absurd hk h
  · rfl

theorem foldlM_applyMove_filter (steps : List Step) (z : Tree × Nat) :
    (steps.filter fun s ↦ places s.1).foldlM applyMove z = steps.foldlM applyMove z := by
  rw [List.foldlM_filter]
  refine congrArg (List.foldlM · z steps) (funext₂ fun z s ↦ ?_)
  cases hp : places s.1 with
  | true => rfl
  | false =>
    rw [places, Bool.or_eq_false_iff, beq_eq_false_iff_ne] at hp
    exact (applyMove_of_not hp.2 z).symm

theorem applyAddition_of_not {s : Step} (h : places s.1 = false) (d : Tree) :
    applyAddition d s = .ok d := by
  rw [places, Bool.or_eq_false_iff, beq_eq_false_iff_ne] at h
  unfold applyAddition
  split
  · next hk _ => exact absurd hk h.2
  · next hk => rw [hk] at h; cases h.1
  · next hk => rw [hk] at h; cases h.1
  · rfl

theorem foldlM_applyAddition_filter (steps : List Step) (d : Tree) :
    (steps.filter fun s ↦ places s.1).foldlM applyAddition d =
      steps.foldlM applyAddition d := by
  rw [List.foldlM_filter]
  refine congrArg (List.foldlM · d steps) (funext₂ fun d s ↦ ?_)
  cases hp : places s.1 with
  | true => rfl
  | false => exact (applyAddition_of_not hp d).symm

theorem filter_aimed (q : Change → Bool) (d : Tree) (s : Script) :
    (aimed d s).filter (fun e ↦ q e.1) = aimed d (s.filter q) := List.filter_map

/-- Deletions can only succeed where no node is deleted twice and none was detached before. -/
theorem targets_of_deletions (w : d.WellFormed) (h : steps.foldlM applyDeletion d = .ok d') :
    (deletionTargets steps).Nodup ∧ ∀ x ∈ deletionTargets steps, d.parent? x ≠ none := by
  induction steps generalizing d with
  | nil => exact ⟨List.nodup_nil, fun x hx ↦ absurd hx List.not_mem_nil⟩
  | cons s steps ih =>
    obtain ⟨u, hs, hrest⟩ := foldlM_cons_ok h
    rw [deletionTargets_cons]
    rcases applyDeletion_ok hs with ⟨hnone, rfl⟩ | ⟨node, parent, hnode, hp, rfl⟩
    · rw [hnone]
      exact ih w hrest
    · have hr : Removed [node] d (deleteAt d node parent) :=
        removed_deletion w (lt_size_of_parent? hp) parent
      obtain ⟨hn, hpar⟩ := ih hr.wellFormed hrest
      rw [hnode, List.singleton_append, List.nodup_cons]
      refine ⟨⟨fun hm ↦ hpar node hm ?_, hn⟩, fun x hx ↦ ?_⟩
      · rw [hr.parent?, if_pos List.mem_cons_self]
      · rcases List.mem_cons.1 hx with rfl | hx
        · rw [hp]
          exact Option.some_ne_none _
        · intro hnone
          refine hpar x hx ?_
          rw [hr.parent?, hnone, ite_self]

/-- Deletions write to no content and leave the kinds of the overlays as they are. -/
theorem data_deletions (h : steps.foldlM applyDeletion d = .ok d') : d'.size = d.size ∧
    ∀ x, d'.content x = d.content x ∧ (d'.overlay x).blank = (d.overlay x).blank := by
  refine deletions_induction (P := fun u ↦ u.size = d.size ∧ ∀ x, u.content x = d.content x ∧
    (u.overlay x).blank = (d.overlay x).blank) h ⟨rfl, fun x ↦ ⟨rfl, rfl⟩⟩
    fun u node parent ⟨hsize, hdata⟩ _ ↦ ?_
  refine ⟨(size_deleteAt u node parent).trans hsize, fun x ↦
    ⟨(content_deleteAt u node parent x).trans (hdata x).1, .trans ?_ (hdata x).2⟩⟩
  rw [deleteAt, (sameData_detach _ _).overlay]
  exact ((Akin.modifyDelta ..).trans (.markSubtree u node .deleted)).kind x

theorem akin_deletions (w : d.WellFormed) (hperm : steps.Perm steps')
    (h : steps.foldlM applyDeletion d = .ok e) :
    ∃ e', steps'.foldlM applyDeletion d = .ok e' ∧ Akin e e' := by
  have htargets : (deletionTargets steps).Perm (deletionTargets steps') := hperm.filterMap _
  obtain ⟨hn, hp⟩ := targets_of_deletions w h
  obtain ⟨e₁, he₁, hr⟩ := deletions_ok steps d w hn hp
  obtain ⟨e', he', hr'⟩ := deletions_ok steps' d w (htargets.nodup_iff.1 hn) fun x hx ↦
    hp x (htargets.mem_iff.2 hx)
  obtain rfl : e₁ = e := Except.ok.inj (he₁.symm.trans h)
  obtain ⟨hsize, hdata⟩ := data_deletions h
  obtain ⟨hsize', hdata'⟩ := data_deletions he'
  refine ⟨e', he', hsize.trans hsize'.symm, fun x ↦ ?_, fun x ↦
    (hdata x).1.trans (hdata' x).1.symm, fun x ↦ (hdata x).2.trans (hdata' x).2.symm⟩
  rw [hr.children, hr'.children]
  refine List.filter_congr fun c _ ↦ ?_
  rw [List.contains_eq_mem, List.contains_eq_mem, decide_eq_decide.2 htargets.mem_iff]

theorem akin_attach (h : Akin d d') (he : attach d c node = .ok e) :
    ∃ e', attach d' c node = .ok e' ∧ Akin e e' := by
  obtain ⟨r, i, q, hnew, hr, hi, rfl⟩ := attach_ok he
  rw [h.resolve] at hr
  rw [h.children] at hi
  exact ⟨_, Grown.attach_eq hnew hr hi, h.insertChild q i node⟩

theorem akin_applyAddition {s : Step} (h : Akin d d') (he : applyAddition d s = .ok e) :
    ∃ e', applyAddition d' s = .ok e' ∧ Akin e e' := by
  obtain ⟨c, a⟩ := s
  rcases applyAddition_ok he with ⟨hnot, hi, rfl⟩ | ⟨node, hk, hnode, he⟩ | ⟨u, hi, hu, he⟩
  · exact ⟨d', applyAddition_pass hnot hi, h⟩
  · obtain rfl : a = some node := hnode
    rw [applyAddition_move hk]
    exact akin_attach h he
  · rw [applyAddition_insertion hi hu, ← h.size]
    refine akin_attach ?_ he
    exact ((Akin.markSubtree ..).trans (h.importSubtree u root)).trans (Akin.markSubtree ..).symm

theorem akin_additions (h : Akin d d') (he : steps.foldlM applyAddition d = .ok e) :
    ∃ e', steps.foldlM applyAddition d' = .ok e' ∧ Akin e e' := by
  induction steps generalizing d d' with
  | nil =>
    obtain rfl := Except.ok.inj he
    exact ⟨d', rfl, h⟩
  | cons s steps ih =>
    obtain ⟨u, hs, hrest⟩ := foldlM_cons_ok he
    obtain ⟨u', hu', hakin⟩ := akin_applyAddition h hs
    rw [List.foldlM_cons, hu']
    exact ih hakin hrest

/-- The same changes in another order, while updates stay in order among themselves, and so do the
changes that put nodes in new places. -/
structure Shuffled (s s' : Script) : Prop where
  perm : s.Perm s'
  updates : s.filter (fun c ↦ c.kind == .update) = s'.filter fun c ↦ c.kind == .update
  places : s.filter Script.places = s'.filter Script.places

theorem Shuffled.symm (h : Shuffled s s') : Shuffled s' s :=
  ⟨h.perm.symm, h.updates.symm, h.places.symm⟩

theorem akin_patch (w : t.WellFormed) (h : Shuffled s s') (hd : patch t s = .ok d) :
    ∃ d', patch t s' = .ok d' ∧ Akin d d' := by
  obtain ⟨htargets, d₁, k, d₂, h₁, h₂, h₃⟩ := patch_ok hd
  have w₁ := (moving_of_foldlM (moving_pristine w _) h₁).1.wellFormed
  rw [← foldl_applyUpdate_filter, ← foldlM_applyMove_filter,
    filter_aimed (fun c ↦ c.kind == .update), filter_aimed Script.places, h.updates, h.places,
    ← filter_aimed, ← filter_aimed, foldl_applyUpdate_filter, foldlM_applyMove_filter] at h₁
  rw [← foldlM_applyAddition_filter, filter_aimed Script.places, h.places, ← filter_aimed,
    foldlM_applyAddition_filter] at h₃
  obtain ⟨e₂, he₂, hakin⟩ : ∃ e₂, (aimed (pristine t) s').foldlM applyDeletion d₁ = .ok e₂ ∧
      Akin d₂ e₂ := akin_deletions w₁ (h.perm.map _) h₂
  obtain ⟨e, he, hakin'⟩ := akin_additions hakin h₃
  refine ⟨e, ?_, hakin'⟩
  rw [patch_eq s' fun c hc ↦ htargets c (h.perm.mem_iff.2 hc)]
  simp only [h₁, he₂, bind, Except.bind]
  exact he

/-- The order of a script matters within its updates and within its new places only. -/
theorem patch_shuffled (w : t.WellFormed)
    (hpayload : ∀ c ∈ s, ∀ u, c.payload = some u → u.WellFormed) (h : Shuffled s s') :
    ((∃ d, patch t s = .ok d) ↔ ∃ d', patch t s' = .ok d') ∧
      ∀ d d', patch t s = .ok d → patch t s' = .ok d' → d.sameContent d' = true := by
  refine ⟨⟨fun ⟨d, hd⟩ ↦ ?_, fun ⟨d', hd'⟩ ↦ ?_⟩, fun d d' hd hd' ↦ ?_⟩
  · obtain ⟨d', hd', -⟩ := akin_patch w h hd
    exact ⟨d', hd'⟩
  · obtain ⟨d, hd, -⟩ := akin_patch w h.symm hd'
    exact ⟨d, hd⟩
  · obtain ⟨u, hu, hakin⟩ := akin_patch w h.symm hd'
    obtain rfl : u = d := Except.ok.inj (hu.symm.trans hd)
    have hpayload' : ∀ c ∈ s', ∀ u, c.payload = some u → u.WellFormed := fun c hc ↦
      hpayload c (h.perm.mem_iff.2 hc)
    exact hakin.mirrors.sameContent (placing_of_patch w hpayload' hd').1.wellFormed
      (placing_of_patch w hpayload hd).1.wellFormed

def callOutOfLoopLate : Script :=
  [{ kind := .move, old := some [0, 0], new := some [0, 0] },
    { kind := .deletion, old := some [0, 1] },
    { kind := .subtreeDeletion, old := some [0] },
    { kind := .insertion, new := some [1], payload := some (leaf { label := "stop" }) },
    { kind := .update, old := some [0, 0], updates := [(Content.textKey, ⟨none, some "pay"⟩)] }]

theorem shuffled_callOutOfLoop : ∃ d d', patch callsInLoop callOutOfLoop = .ok d ∧
    patch callsInLoop callOutOfLoopLate = .ok d' ∧ d.sameContent d' = true := by
  have w : callsInLoop.WellFormed := wellFormed_ofList _ _ (by decide)
  have hshuffled : Shuffled callOutOfLoop callOutOfLoopLate :=
    ⟨(List.perm_append_singleton _ _).symm.trans (.cons _ (.swap ..)), rfl, rfl⟩
  obtain ⟨hiff, hsame⟩ := patch_shuffled w payload_callOutOfLoop hshuffled
  obtain ⟨d, h⟩ := patch_callOutOfLoop
  obtain ⟨d', h'⟩ := hiff.1 ⟨d, h⟩
  exact ⟨d, d', h, h', hsame d d' h h'⟩

end FlowMerge.Script
