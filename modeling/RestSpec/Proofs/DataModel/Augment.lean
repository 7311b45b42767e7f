/-
Applying augments. An augment adds to a node that stands in no grouping: what it declares and what
it uses become children, which the augment lists too. From then on the node, and every copy around
it up to the first node that is none, is a copy no more; so whatever still is a copy goes on to
mirror what it copies.
-/
import RestSpec.Proofs.DataModel.Build

namespace RestSpec.DataModel

open Relation (TransGen ReflTransGen)

/-! ## Ways up -/

/-- What a way up shares with its start, if parents share it with their children. -/
theorem ancestorsWithin_all {model : DataModel} {P : NodeId → Prop}
    (hup : ∀ x p, (model.node x).parent = some p → P x → P p) :
    ∀ (steps : Nat) (id : NodeId), P id → ∀ x ∈ id :: model.ancestorsWithin steps id, P x
  | 0, id, h, x, hx => by
    rw [ancestorsWithin, List.mem_singleton] at hx
    exact hx ▸ h
  | steps + 1, id, h, x, hx => by
    unfold ancestorsWithin at hx
    rcases List.mem_cons.1 hx with rfl | hx
    · exact h
    · split at hx
      · cases hx
      · rename_i p hp
        exact ancestorsWithin_all hup steps p (hup id p hp h) x hx

/-- Going up while a test holds does not stop below a parent that passes it. -/
theorem parent_mem_takeWhile {model : DataModel} {test : NodeId → Bool}
    (hup : ∀ x p, (model.node x).parent = some p → p < x) :
    ∀ (steps : Nat) (id c p : NodeId), id ≤ steps →
      c ∈ (id :: model.ancestorsWithin steps id).takeWhile test →
      (model.node c).parent = some p → test p = true →
      p ∈ (id :: model.ancestorsWithin steps id).takeWhile test
  | 0, id, c, p, hle, hc, hp, _ => by
    have hmem := (List.takeWhile_prefix test).subset hc
    rw [ancestorsWithin, List.mem_singleton] at hmem
    have := hup c p hp
    rw [hmem, Nat.le_zero.1 hle] at this
    exact absurd this (Nat.not_lt_zero p)
  | steps + 1, id, c, p, hle, hc, hp, htest => by
    rw [List.takeWhile_cons] at hc ⊢
    split at hc
    · rw [if_pos ‹_›]
      refine List.mem_cons_of_mem _ ?_
      unfold ancestorsWithin at hc ⊢
      rcases List.mem_cons.1 hc with rfl | hc
      · rw [hp]
        dsimp only
        rw [List.takeWhile_cons, if_pos htest]
        exact List.mem_cons_self
      · split at hc
        · cases hc
        · rename_i q hq
          have := Nat.lt_of_lt_of_le (hup id q hq) hle
          exact parent_mem_takeWhile hup steps q c p (Nat.le_of_lt_succ this) hc hp htest
    · cases hc

/-! ## Targets -/

/-- Where `resolveTarget` may lead: to a node that stands in no grouping and that children can be
added to. -/
structure Rooted (model : DataModel) (id : NodeId) : Prop where
  lt : id < model.size
  free : ¬ model.Grouped id
  kind : (model.node id).kind.isAugment = false

theorem Kind.of_takes {k c : Kind} (h : k.takes c = true) :
    c.isAugment = false ∧ c ≠ .grouping := by
  cases k <;> cases c <;> simp_all [takes, isAugment]

theorem isAugmentable_ne_rpc {k : Kind} (h : isAugmentable k = true) : k ≠ .rpc := by
  rintro rfl
  cases h

/-- `resolveTarget` gives what the steps lead to, and only a node that can be augmented. -/
theorem foldlM_of_resolveTarget {model : DataModel} {home target : String} {id : NodeId}
    (h : resolveTarget model home target = .ok id) :
    ((Text.words (· != '/') target.toList).map String.ofList).foldlM
        (resolveStep model home target) none = .ok (some id) ∧
      isAugmentable (model.node id).kind = true := by
  unfold resolveTarget at h
  obtain ⟨found, hfold, h⟩ := bind_eq_ok.1 h
  cases found with
  | none => cases h
  | some x =>
    dsimp only at h
    split at h
    · rename_i hkind
      cases h
      exact ⟨hfold, hkind⟩
    · cases h

namespace Draft

variable {d d' d'' : Draft} {changing : NodeId → Prop}

theorem Later.rooted (h : Later d d') (hf : d.Frozen) {id : NodeId} (hr : d.model.Rooted id) :
    d'.model.Rooted id :=
  ⟨lt_of_lt_of_le hr.lt h.size, fun hg => hr.free ((h.grouped_iff hf hr.lt).1 hg),
    (congrArg Kind.isAugment (h.kind id hr.lt)).trans hr.kind⟩

theorem Coherent.rooted_child (hc : d.Coherent changing) {id c : NodeId}
    (hr : d.model.Rooted id) (h : c ∈ (d.node id).children) : d.model.Rooted c := by
  have hreg := hc.regular id hr.lt
  obtain ⟨hparent, htakes⟩ := hreg.below hr.kind c h
  obtain ⟨hkind, hne⟩ := Kind.of_takes htakes
  refine ⟨(hreg.children c h).2, fun hg => ?_, hkind⟩
  cases hg with
  | root hroot => exact hne hroot
  | child hp hg =>
    obtain rfl := Option.some.inj (hparent.symm.trans hp)
    exact hr.free hg

theorem Frozen.not_done_of_parent (hf : d.Frozen) {id p : NodeId}
    (hp : (d.node id).parent = some p) (hpd : ¬ d.Done p) : ¬ d.Done id := by
  intro h
  cases h with
  | root hb => exact absurd ((hf.root _ _ hb).2.2.symm.trans hp) nofun
  | child hp' h =>
    obtain rfl := Option.some.inj (hp.symm.trans hp')
    exact hpd h

theorem resolveStep_rooted (hc : d.Coherent changing)
    (hroots : ∀ r ∈ d.model.roots, d.model.Rooted r) {home target segment : String}
    {current next : Option NodeId} (hcurrent : ∀ id, current = some id → d.model.Rooted id)
    (h : resolveStep d.model home target current segment = .ok next) :
    ∀ id, next = some id → d.model.Rooted id := by
  unfold resolveStep at h
  obtain ⟨⟨moduleName, localName⟩, -, h⟩ := bind_eq_ok.1 h
  dsimp only at h
  split at h
  · rename_i found hfound
    cases h
    rintro id ⟨⟩
    cases current with
    | none =>
      obtain ⟨m, hm, hfind⟩ := Option.bind_eq_some_iff.1 hfound
      exact hroots _ (List.mem_flatMap.2 ⟨m, List.mem_of_find?_eq_some hm,
        List.mem_of_find?_eq_some hfind⟩)
    | some p =>
      exact hc.rooted_child (hcurrent p rfl) (List.mem_of_find?_eq_some hfound)
  · cases h

/-- The node that `resolveTarget` finds is `Rooted` and `isAugmentable`, if all roots of the model
are `Rooted`. -/
theorem resolveTarget_rooted (hc : d.Coherent changing)
    (hroots : ∀ r ∈ d.model.roots, d.model.Rooted r) {home target : String} {id : NodeId}
    (h : resolveTarget d.model home target = .ok id) :
    d.model.Rooted id ∧ (d.node id).kind ≠ .rpc := by
  obtain ⟨hfold, hkind⟩ := foldlM_of_resolveTarget h
  have hfound : ∀ x, some id = some x → d.model.Rooted x :=
    foldlM_invariant (fun o => ∀ x, o = some x → d.model.Rooted x) _ none (some id)
      (fun _ _ _ _ hcurrent h => resolveStep_rooted hc hroots hcurrent h) nofun hfold
  exact ⟨hfound id rfl, isAugmentable_ne_rpc hkind⟩

/-! ## While an augment is being applied -/

/-- An augment `a` is adding to the node `t`, which need not mirror what it was copied from until
`diverge` has run. -/
structure Augmenting (d : Draft) (t a : NodeId) : Prop where
  coherent : d.Coherent (· = t)
  rooted : d.model.Rooted t
  call : (d.node t).kind ≠ .rpc
  order : t < a
  lt : a < d.model.size
  kind : (d.node a).kind.isAugment = true
  copied : (d.node a).copiedFrom = none

/-- A step of an augment: it keeps `Augmenting` and changes no node but the target and the
augment. -/
structure Augments (t a : NodeId) (d d' : Draft) : Prop where
  augmenting : d'.Augmenting t a
  grows : Grows (fun x => x = t ∨ x = a) d d'

theorem Augments.trans {t a : NodeId} (h : Augments t a d d') (h' : Augments t a d' d'') :
    Augments t a d d'' :=
  ⟨h'.augmenting, h.grows.trans h'.grows fun _ _ hx => hx⟩

section Augmenting

variable {t a : NodeId} (h : d.Augmenting t a)

include h

theorem Augmenting.undone : ∀ x, x = t ∨ x = a → ¬ d.Done x := by
  rintro x (rfl | rfl) hd
  · exact h.rooted.free (h.coherent.frozen.grouped hd)
  · exact absurd ((h.coherent.frozen.not_augment hd).symm.trans h.kind) nofun

theorem Augmenting.ne : t ≠ a := Nat.ne_of_lt h.order

/-- `Augmenting` goes on if what holds of the target and of the augment themselves goes on to
hold. -/
theorem Augmenting.later (hc : d'.Coherent (· = t)) (hg : Grows (fun x => x = t ∨ x = a) d d') :
    Augments t a d d' := by
  have ht := h.rooted.lt
  refine ⟨⟨hc, hg.later.rooted h.coherent.frozen h.rooted, ?_, h.order,
    lt_of_lt_of_le h.lt hg.size, ?_, ?_⟩, hg⟩
  · rw [hg.kind ht]; exact h.call
  · rw [hg.kind h.lt]; exact h.kind
  · rw [hg.copiedFrom h.lt]; exact h.copied

/-- Children that the node does not bring in itself are added to it, and the augment may record
children and uses. -/
theorem Augmenting.extend (hg : Grows (fun x => x = t ∨ x = a) d d') (hb : d'.built = d.built)
    (hnew : ∀ x, d.model.size ≤ x → x < d'.model.size → d'.Settled x) (ids cs us : List NodeId)
    (ht : d'.node t = { d.node t with children := (d.node t).children ++ ids })
    (ha : d'.node a = { d.node a with
      children := (d.node a).children ++ cs, uses := (d.node a).uses ++ us })
    (hids : ∀ c ∈ ids, t < c ∧ c < d'.model.size ∧ (d'.node c).parent = some t ∧
      (d.node t).kind.takes (d'.node c).kind = true ∧ (d'.node c).introducedBy ≠ some t)
    (hcs : ∀ c ∈ cs, a < c ∧ c < d'.model.size)
    (hus : ∀ g ∈ us, ∃ name, (name, g) ∈ d.built) : Augments t a d d' := by
  have hf := h.coherent.frozen
  have ho := h.undone
  have hrt := h.coherent.regular t h.rooted.lt
  refine h.later (hg.coherent hf ho h.coherent (hg.frozen hf ho hb) hnew ?_) hg
  rintro x - (rfl | rfl)
  · refine .inr ⟨hg.regular_opened hrt h.rooted.lt ids [] (by rw [ht]; simp) ?_ (by simp)
      fun hkind => ?_, fun hx => absurd rfl hx⟩
    · intro c hc
      obtain ⟨hlt, hsize, hparent, htakes, -⟩ := hids c hc
      exact ⟨hlt, hsize, fun _ => ⟨hparent, htakes⟩⟩
    · obtain ⟨declared, blocks, added, hp⟩ := hrt.parts h.rooted.kind
      have hchildren : (d.node x).children = declared ++ blocks.flatten ++ added := hp.children
      have hmade := hg.made hf ho (fun g hgu => by
        obtain ⟨name, hb⟩ := hrt.uses g hgu
        exact .root hb) h.rooted.lt (fun c hc => (hrt.children c (hchildren ▸ hc)).2) hp.made
      refine ⟨declared, blocks, added ++ ids, ?_, hmade.declares, ?_, fun c hc => ?_, fun hx => ?_⟩
      · show (d'.node x).children = _
        rw [ht, hchildren]; simp
      · show List.Forall₂ _ (d'.node x).uses blocks
        rw [ht]; exact hmade.stands
      · rcases List.mem_append.1 hc with hc | hc
        · exact hmade.adds c hc
        · exact (hids c hc).2.2.2.2
      · exact absurd ((hg.grouped_iff hf h.rooted.lt).1 hx) h.rooted.free
  · refine .inr ⟨hg.regular_opened (h.coherent.regular x h.lt) h.lt cs us ha (fun c hc => ?_)
      (fun g hgu => ?_) fun hkind => ?_, fun _ s hs => ?_⟩
    · exact ⟨(hcs c hc).1, (hcs c hc).2, fun hkind => absurd (hkind.symm.trans h.kind) nofun⟩
    · obtain ⟨name, hmem⟩ := hus g hgu
      exact ⟨name, hg.mem_built hmem⟩
    · exact absurd (hkind.symm.trans h.kind) nofun
    · have hs : (d'.node x).copiedFrom = some s := hs
      rw [ha] at hs
      exact absurd (h.copied.symm.trans hs) nofun

end Augmenting

/-! ## Marks -/

/-- The child `c` has been added to `t` by the augment `a`, which brought it in. -/
structure Added (d : Draft) (t a c : NodeId) : Prop where
  order : a < c
  lt : c < d.model.size
  place : (d.node c).parent = some t
  introduced : (d.node c).introducedBy ≠ some t

theorem Grows.added {opened : NodeId → Prop} (hg : Grows opened d d') {t a c : NodeId}
    (h : d.Added t a c) : d'.Added t a c :=
  ⟨h.order, lt_of_lt_of_le h.lt hg.size, (hg.parent h.lt).trans h.place, by
    rw [hg.introducedBy h.lt]; exact h.introduced⟩

/-- Names the module that has added a node, as `markAugmented` does. -/
def markModule (d : Draft) (moduleName : String) (id : NodeId) : Draft :=
  d.update id fun n => { n with augmentedBy := some moduleName }

section Mark

variable {t a c : NodeId} (moduleName : String) (h : d.Augmenting t a) (hadded : d.Added t a c)

include h hadded

theorem Augmenting.markModule_coherent : (d.markModule moduleName c).Coherent (· = t) := by
  have hc := h.coherent
  have hf := hc.frozen
  have hcd : ¬ d.Done c := hf.not_done_of_parent hadded.place (h.undone t (.inl rfl))
  have hk : Keeps d (d.markModule moduleName c) := keeps_update hadded.lt hcd rfl rfl rfl
  have hother : ∀ x, x ≠ c → (d.markModule moduleName c).node x = d.node x := fun x hx =>
    node_update_of_ne d hadded.lt _ hx
  have hself : (d.markModule moduleName c).node c =
      { d.node c with augmentedBy := some moduleName } := node_update_self d hadded.lt _
  have hplace : ∀ x, (d.node x).SamePlace ((d.markModule moduleName c).node x) := by
    intro x
    by_cases hx : x = c
    · rw [hx, hself]; exact ⟨rfl, rfl, rfl⟩
    · rw [hother x hx]; exact ⟨rfl, rfl, rfl⟩
  have hbody : ∀ x, (d.node x).SameBody ((d.markModule moduleName c).node x) := by
    intro x
    by_cases hx : x = c
    · rw [hx, hself]; exact ⟨rfl, rfl, rfl, rfl, rfl, rfl, rfl⟩
    · rw [hother x hx]; exact .refl _
  have hcopied : ∀ x, ((d.markModule moduleName c).node x).copiedFrom = (d.node x).copiedFrom := by
    intro x
    by_cases hx : x = c
    · rw [hx, hself]
    · rw [hother x hx]
  have hsize : (d.markModule moduleName c).model.size = d.model.size := size_update _ _ _
  -- only the node that the child was added to shows the mark, and it does not bring in the child
  have hparent : ∀ x < d.model.size, (d.node x).kind.isAugment = false →
      ∀ y ∈ (d.node x).children, y = c → x = t := by
    rintro x hx hkind y hy rfl
    exact Option.some.inj (((hc.regular x hx).below hkind y hy).1.symm.trans hadded.place)
  refine ⟨hk.frozen hf (fun x => (done_update hadded.lt rfl).1) rfl fun x p hp => ?_,
    fun x hx => ?_, fun x hx => ?_, fun x s hx hs => ?_⟩
  · exact hf.up x p ((hplace x).parent ▸ hp)
  · obtain ⟨hlt, hd⟩ := hc.undone x hx
    exact ⟨hsize ▸ hlt, fun hd' => hd ((done_update hadded.lt rfl).1 hd')⟩
  · rw [hsize] at hx
    refine hk.regular hf (hc.regular x hx) hx (hplace x).parent (hbody x) (.inl (hcopied x))
      fun hkind y hy => ⟨hplace y, fun hintro => ?_⟩
    by_cases hyc : y = c
    · rw [hyc, hparent x hx hkind y hy hyc] at hintro
      exact absurd hintro hadded.introduced
    · rw [hother y hyc]
      exact ⟨.refl _, .inl rfl⟩
  · have hs : d.model.Copies x s := (hcopied x).symm.trans hs
    have hlt := lt_size_of_copies hs
    have hsd := ((hc.regular x hlt).copied s hs).2
    have hm := hc.mirrors x s hx hs
    have hkind : (d.node x).kind.isAugment = false := by
      have hkind : (d.node x).kind = (d.node s).kind := hm.kind
      rw [hkind]
      exact hf.not_augment hsd
    refine hk.mirrors hf hsd (hbody x) (fun y hy => ?_) hm
    rw [hother y fun hyc => hx (hparent x hlt hkind y hy hyc)]
    exact ⟨.refl _, rfl⟩

/-- A node that is `Added` can be marked with its module and listed at the augment: `markAugmented`
keeps `Augmenting`. -/
theorem Augmenting.mark {start : Draft} (hg : Grows (fun x => x = t ∨ x = a) start d)
    (hle : start.model.size ≤ c) :
    (markAugmented moduleName a d c).Augmenting t a ∧
      Grows (fun x => x = t ∨ x = a) start (markAugmented moduleName a d c) ∧
      ∀ y, d.Added t a y → (markAugmented moduleName a d c).Added t a y := by
  have hg' : Grows (fun x => x = t ∨ x = a) start (d.markModule moduleName c) :=
    hg.update_new hle hadded.lt rfl
  have hself : (d.markModule moduleName c).node c =
      { d.node c with augmentedBy := some moduleName } := node_update_self d hadded.lt _
  have hother : ∀ x, x ≠ c → (d.markModule moduleName c).node x = d.node x := fun x hx =>
    node_update_of_ne d hadded.lt _ hx
  have hsize : (d.markModule moduleName c).model.size = d.model.size := size_update _ _ _
  have hac := Nat.ne_of_lt hadded.order
  have htc := Nat.ne_of_lt (lt_trans h.order hadded.order)
  have hadded' : ∀ y, d.Added t a y → (d.markModule moduleName c).Added t a y := by
    intro y hy
    refine ⟨hy.order, hsize ▸ hy.lt, (parent_update hadded.lt rfl y).trans hy.place, ?_⟩
    by_cases hyc : y = c
    · rw [hyc, hself]; exact hadded.introduced
    · rw [hother y hyc]; exact hy.introduced
  have hmarked : (d.markModule moduleName c).Augmenting t a := by
    have hgrouped := fun hx => (grouped_update (f := fun n => { n with
      augmentedBy := some moduleName }) hadded.lt rfl rfl (x := t)).1 hx
    refine ⟨h.markModule_coherent moduleName hadded,
      ⟨hsize ▸ h.rooted.lt, fun hx => h.rooted.free (hgrouped hx), ?_⟩, ?_, h.order,
      hsize ▸ h.lt, ?_, ?_⟩
    · show ((d.markModule moduleName c).node t).kind.isAugment = false
      rw [hother t htc]; exact h.rooted.kind
    · rw [hother t htc]; exact h.call
    · rw [hother a hac]; exact h.kind
    · rw [hother a hac]; exact h.copied
  have happend : Grows (fun x => x = t ∨ x = a) (d.markModule moduleName c)
      (markAugmented moduleName a d c) := grows_appendChild hmarked.lt (.inr rfl) c
  have hnode : (markAugmented moduleName a d c).node a = _ := node_appendChild hmarked.lt c
  have hlisted : Augments t a (d.markModule moduleName c) (markAugmented moduleName a d c) := by
    refine hmarked.extend happend rfl (fun x hx hx' => ?_) [] [c] [] ?_ ?_
      (by simp) (fun x hx => ?_) (by simp)
    · exact absurd (size_update _ a _ ▸ hx') (Nat.not_lt.2 hx)
    · refine (node_update_of_ne _ hmarked.lt _ h.ne).trans ?_
      simp
    · rw [hnode]; simp
    · rw [List.mem_singleton.1 hx]
      exact ⟨hadded.order, lt_of_lt_of_le (hsize ▸ hadded.lt) happend.size⟩
  exact ⟨hlisted.augmenting, hg'.trans happend fun _ _ hx => hx,
    fun y hy => happend.added (hadded' y hy)⟩

end Mark

/-- All nodes of a list are marked. -/
theorem Augmenting.marks {t a : NodeId} {moduleName : String} {start : Draft} :
    ∀ (ids : List NodeId) (d : Draft), d.Augmenting t a →
      Grows (fun x => x = t ∨ x = a) start d →
      (∀ c ∈ ids, start.model.size ≤ c ∧ d.Added t a c) →
      Augments t a start (ids.foldl (markAugmented moduleName a) d)
  | [], _, h, hg, _ => ⟨h, hg⟩
  | c :: ids, d, h, hg, hids => by
    obtain ⟨hle, hadded⟩ := hids c List.mem_cons_self
    obtain ⟨h', hg', hkept⟩ := h.mark moduleName hadded hg hle
    refine Augmenting.marks ids _ h' hg' fun x hx => ?_
    obtain ⟨hle, hadded⟩ := hids x (List.mem_cons_of_mem _ hx)
    exact ⟨hle, hkept x hadded⟩

/-! ## What an augment adds -/

/-- A node that `AddsNode` below the target is `Added` by the augment, and is not marked yet. -/
theorem Augmenting.declare {t a : NodeId} {kind : Kind} (h : d.Augmenting t a)
    (hadds : AddsNode (· = t) (some t) kind d d') (htakes : (d.node t).kind.takes kind = true) :
    (d'.appendChild t d.model.size).Augmenting t a ∧
      Grows (fun x => x = t ∨ x = a) d (d'.appendChild t d.model.size) ∧
      (d'.appendChild t d.model.size).Added t a d.model.size := by
  have ht := h.rooted.lt
  have hg : Grows (fun x => x = t ∨ x = a) d d' :=
    hadds.grows.weaken fun x _ hx => .inl (Option.some.inj hx).symm
  have h₁ := (h.later hadds.coherent hg).augmenting
  have hlt := hadds.filling.lt
  have happend : Grows (fun x => x = t ∨ x = a) d' (d'.appendChild t d.model.size) :=
    grows_appendChild h₁.rooted.lt (.inl rfl) _
  have hplace := hadds.place
  have hintroduced : (d'.node d.model.size).introducedBy ≠ some t := by
    rw [hadds.introduced]; exact nofun
  have h₂ : Augments t a d' (d'.appendChild t d.model.size) := by
    refine h₁.extend happend rfl (fun x hx hx' => ?_) [d.model.size] [] []
      (node_appendChild h₁.rooted.lt _) ?_ (fun c hc => ?_) (by simp) (by simp)
    · exact absurd (size_update _ t _ ▸ hx') (Nat.not_lt.2 hx)
    · refine (node_update_of_ne _ h₁.rooted.lt _ h.ne.symm).trans ?_
      simp
    · rw [List.mem_singleton.1 hc, happend.parent hlt, happend.kind hlt, happend.introducedBy hlt,
        hadds.hasKind, hg.kind ht]
      exact ⟨ht, lt_of_lt_of_le hlt happend.size, hplace, htakes, hintroduced⟩
  exact ⟨h₂.augmenting, hg.trans happend fun _ _ hx => hx,
    happend.added ⟨h.lt, hlt, hplace, hintroduced⟩⟩

/-- The copies that `UsesGrouping` brings below the target are `Added` by the augment, and are not
marked yet. -/
theorem Augmenting.use {t a g : NodeId} {key : GroupingName} {ids : List NodeId} {d₁ : Draft}
    (h : d.Augmenting t a) (hc₁ : d₁.Coherent (· = t)) (hg₁ : Grows (fun _ => False) d d₁)
    (hb : (key, g) ∈ d₁.built) (hu : UsesGrouping t a g d₁ d' ids) :
    d'.Augmenting t a ∧ Grows (fun x => x = t ∨ x = a) d d' ∧
      (∀ c ∈ ids, d.model.size ≤ c ∧ d'.Added t a c) ∧
      (d'.node t).children.drop (d.node t).children.length = ids := by
  have hw : Grows (fun x => x = t ∨ x = a) d d₁ := hg₁.weaken fun _ _ hx => hx.elim
  have h₁ := (h.later hc₁ hw).augmenting
  have hf := hc₁.frozen
  have hgd : d₁.Done g := .root hb
  have hbelow := hu.below hf h₁.rooted.lt hgd (hf.root key g hb).2.1 h₁.call h₁.undone
  have hfilled := hu.filled
  rw [if_neg h.ne, List.append_nil] at hfilled
  have hne : a ≠ t := h.ne.symm
  have hintroduced : ∀ c ∈ ids, (d'.node c).introducedBy ≠ some t := by
    intro c hc
    rw [(hbelow c hc).2.2.2.2.1]
    exact fun h => hne (Option.some.inj h)
  have h₂ : Augments t a d₁ d' := by
    refine h₁.extend hu.grows hu.built hu.settled ids [] [g] hfilled ?_ (fun c hc => ?_) (by simp)
      (fun x hx => ?_)
    · rw [hu.recorded hne]; simp
    · obtain ⟨hlt, hsize, hparent, htakes, -⟩ := hbelow c hc
      exact ⟨hlt, hsize, hparent, htakes, hintroduced c hc⟩
    · rw [List.mem_singleton.1 hx]
      exact ⟨key, hb⟩
  refine ⟨h₂.augmenting, hw.trans hu.grows fun _ _ hx => hx, fun c hc => ?_, ?_⟩
  · have hle := (hu.bounds c hc).1
    exact ⟨le_trans hw.size hle, lt_of_lt_of_le h₁.lt hle, (hbelow c hc).2.1,
      (hbelow c hc).2.2.1, hintroduced c hc⟩
  · rw [hfilled, hg₁.kept t h.rooted.lt not_false]
    exact List.drop_left

section Provided

variable {names : List String} {provide : Provide} (hprovide : Provides names provide)
  {moduleName : String} (hm : moduleName ∈ names) {t a : NodeId} (h : d.Augmenting t a)
  (hn : d.model.moduleNames = names)

include hprovide hm h hn

theorem augmentChild_augments {s : Source.Statement}
    (hok : augmentChild provide moduleName t a d s = .ok d') : Augments t a d d' := by
  unfold augmentChild at hok
  obtain ⟨⟨d₁, id⟩, hadd, hok⟩ := bind_eq_ok.1 hok
  cases hok
  obtain ⟨rfl, hadds⟩ := addStatement_adds hprovide hm s d d₁ h.coherent hn (fun p hp => by
    obtain rfl := Option.some.inj hp
    exact ⟨h.rooted.lt, h.undone t (.inl rfl)⟩) hadd
  obtain ⟨h₂, hg₂, hadded⟩ := h.declare hadds (Kind.takes_linkedKind h.call s.kind)
  obtain ⟨h₃, hg₃, -⟩ := h₂.mark moduleName hadded hg₂ le_rfl
  exact ⟨h₃, hg₃⟩

theorem augmentUse_augments {name : String}
    (hok : augmentUse provide moduleName t a d name = .ok d') : Augments t a d d' := by
  unfold augmentUse at hok
  obtain ⟨d₂, huse, hok⟩ := bind_eq_ok.1 hok
  cases hok
  obtain ⟨d₁, g, key, hc₁, hg₁, hb, hm₁, rfl⟩ := applyUse_ok hprovide hm h.coherent hn huse
  have hw : Grows (fun x => x = t ∨ x = a) d d₁ := hg₁.weaken fun _ _ hx => hx.elim
  have h₁ := (h.later hc₁ hw).augmenting
  obtain ⟨ids, hu⟩ := usesGrouping_copyGrouping a hc₁.frozen hm₁ h₁.rooted.lt
    (h₁.undone t (.inl rfl)) h₁.lt (h₁.undone a (.inr rfl)) (.root hb)
  obtain ⟨h₂, hg₂, hadded, hids⟩ := h.use hc₁ hg₁ hb hu
  rw [hids]
  exact h₂.marks ids _ hg₂ hadded

end Provided

/-- What an augment says, one thing after the other. -/
theorem foldlM_augments (names : List String) {t a : NodeId} {α : Type}
    {f : Draft → α → Except SchemaError Draft}
    (hf : ∀ d d' x, d.Augmenting t a → d.model.moduleNames = names → f d x = .ok d' →
      Augments t a d d') {l : List α} (h : d.Augmenting t a) (hn : d.model.moduleNames = names)
    (hok : l.foldlM f d = .ok d') : Augments t a d d' := by
  refine foldlM_invariant (Augments t a d) l d d' (fun x _ b b' hb hx => ?_) ⟨h, .refl _ d⟩ hok
  exact hb.trans (hf b b' x hb.augmenting (hb.grows.modules.trans hn) hx)

/-! ## Divergence -/

/-- A change that every node stands after the other makes to each of them alone. -/
theorem node_foldl_update {f : Node → Node} (hf : ∀ n, f (f n) = f n) :
    ∀ (ids : List NodeId) (d : Draft), (∀ i ∈ ids, i < d.model.size) → ∀ x,
      (ids.foldl (fun d i => d.update i f) d).node x =
        if x ∈ ids then f (d.node x) else d.node x
  | [], d, _, x => by simp
  | i :: ids, d, h, x => by
    have hi := h i List.mem_cons_self
    have hrest := node_foldl_update hf ids (d.update i f) (fun j hj => by
      rw [size_update]; exact h j (List.mem_cons_of_mem _ hj)) x
    rw [List.foldl_cons, hrest, node_update d hi]
    by_cases hx : x = i
    · subst hx
      simp [hf]
    · simp [hx]

theorem foldl_update_frame (f : Node → Node) :
    ∀ (ids : List NodeId) (d : Draft),
      (ids.foldl (fun d i => d.update i f) d).model.size = d.model.size ∧
      (ids.foldl (fun d i => d.update i f) d).built = d.built ∧
      (ids.foldl (fun d i => d.update i f) d).model.modules = d.model.modules
  | [], _ => ⟨rfl, rfl, rfl⟩
  | i :: ids, d => by
    obtain ⟨hsize, hbuilt, hmodules⟩ := foldl_update_frame f ids (d.update i f)
    exact ⟨hsize.trans (size_update d i f), hbuilt, hmodules⟩

/-- The node and the copies around it that `diverge` changes. -/
def diverging (d : Draft) (t : NodeId) : List NodeId :=
  (t :: d.model.ancestors t).takeWhile fun a => (d.node a).copiedFrom.isSome

theorem diverge_eq (d : Draft) (t : NodeId) : diverge d t =
    (d.diverging t).foldl (fun d a => d.update a fun n => { n with copiedFrom := none }) d :=
  rfl

/-- What is known of the nodes that `diverge` changes: they are copies, and stand in no grouping. -/
structure Diverges (d : Draft) (x : NodeId) : Prop where
  copied : (d.node x).copiedFrom ≠ none
  lt : x < d.model.size
  free : ¬ d.model.Grouped x

theorem diverges_of_mem {t : NodeId} (ht : d.model.Rooted t) {x : NodeId}
    (hx : x ∈ d.diverging t) : d.Diverges x := by
  have hcopied : (d.node x).copiedFrom.isSome = true :=
    List.all_eq_true.1 List.all_takeWhile x hx
  obtain ⟨s, hs⟩ := Option.isSome_iff_exists.1 hcopied
  refine ⟨by rw [hs]; exact nofun, lt_size_of_copies hs, ?_⟩
  exact ancestorsWithin_all (P := fun x => ¬ d.model.Grouped x)
    (fun x p hp hx hg => hx (.child hp hg)) _ t ht.free x
    ((List.takeWhile_prefix _).subset hx)

section Diverge

variable {t : NodeId} (hc : d.Coherent (· = t)) (ht : d.model.Rooted t)

include ht

theorem node_diverge (x : NodeId) : (diverge d t).node x =
    if x ∈ d.diverging t then { d.node x with copiedFrom := none } else d.node x := by
  rw [diverge_eq]
  exact node_foldl_update (f := fun n => { n with copiedFrom := none }) (fun _ => rfl) _ d
    (fun i hi => (diverges_of_mem ht hi).lt) x

theorem later_diverge : Later d (diverge d t) := by
  have hnode := node_diverge ht
  obtain ⟨hsize, hbuilt, hmodules⟩ :=
    foldl_update_frame (fun n => { n with copiedFrom := none }) (d.diverging t) d
  refine ⟨hsize.ge, fun x _ => ?_, fun x _ => ?_, ⟨[], hbuilt, by simp⟩, ?_, ?_⟩
  · rw [hnode]; split <;> rfl
  · rw [hnode]; split <;> rfl
  · exact congrArg (List.map Module.name) hmodules
  · exact congrArg (List.flatMap fun m => m.data ++ m.rpcs) hmodules

/-- The nodes that `diverge` changes lose what they were copied from and nothing else. -/
theorem sameFace_diverge (x : NodeId) : (d.node x).SameFace ((diverge d t).node x) := by
  rw [node_diverge ht]
  split
  · exact ⟨⟨rfl, rfl, rfl⟩, rfl, rfl⟩
  · exact .refl _

theorem sameBody_diverge (x : NodeId) : (d.node x).SameBody ((diverge d t).node x) := by
  rw [node_diverge ht]
  split
  · exact ⟨rfl, rfl, rfl, rfl, rfl, rfl, rfl⟩
  · exact .refl _

theorem copiedFrom_diverge (x : NodeId) :
    ((diverge d t).node x).copiedFrom = (d.node x).copiedFrom ∨
      ((diverge d t).node x).copiedFrom = none ∧ ¬ d.model.Grouped x := by
  rw [node_diverge ht]
  split
  · rename_i hx
    exact .inr ⟨rfl, (diverges_of_mem ht hx).free⟩
  · exact .inl rfl

include hc

/-- No node of a grouping is changed by `diverge`: those are all `Done`. -/
theorem node_diverge_of_done {x : NodeId} (hx : d.Done x) : (diverge d t).node x = d.node x := by
  rw [node_diverge ht, if_neg fun hmem => (diverges_of_mem ht hmem).free (hc.frozen.grouped hx)]

theorem keeps_diverge : Keeps d (diverge d t) := by
  have hf := hc.frozen
  have hl := later_diverge ht
  have hchain : ∀ s u, d.Done s → ReflTransGen d.model.Copies s u →
      ReflTransGen (diverge d t).model.Copies s u := by
    intro s u hs hsu
    induction hsu using ReflTransGen.head_induction_on with
    | refl => exact .refl
    | @head s v hsv _ ih =>
      refine .head ?_ (ih (hf.done_copied hs hsv))
      show ((diverge d t).node s).copiedFrom = some v
      rw [node_diverge_of_done hc ht hs]
      exact hsv
  refine ⟨hl.size, fun x => node_diverge_of_done hc ht, fun _ => hl.done, fun _ => hl.mem_built,
    hl.modules, fun c u hsame hcu => ?_, fun x hx => (hl.grouped_iff hf hx).1⟩
  obtain ⟨s, hcs, hsu⟩ := TransGen.head'_iff.1 hcu
  have hs := ((hc.regular c (lt_size_of_copies hcs)).copied s hcs).2
  exact TransGen.head' (hsame.trans hcs) (hchain s u hs hsu)

/-- What `Copies` after `diverge` did so before, and mirrored what it copies. -/
theorem mirrors_before_diverge {x s : NodeId} (h : (diverge d t).model.Copies x s) :
    d.model.Copies x s ∧ (d.node x).kind.isAugment = false ∧ d.model.Mirrors x s := by
  have hs : ((diverge d t).node x).copiedFrom = some s := h
  rw [node_diverge ht] at hs
  split at hs
  · cases hs
  · rename_i hmem
    -- a target that was a copy is among those that diverge
    have hx : x ≠ t := by
      rintro rfl
      refine hmem ?_
      unfold diverging
      rw [List.takeWhile_cons, if_pos (by rw [hs]; rfl)]
      exact List.mem_cons_self
    have hm := hc.mirrors x s hx hs
    have hkind : (d.node x).kind = (d.node s).kind := hm.kind
    refine ⟨hs, ?_, hm⟩
    rw [hkind]
    exact hc.frozen.not_augment ((hc.regular x (lt_size_of_copies hs)).copied s hs).2

/-- What is a copy afterwards has children that are copies as before. -/
theorem copied_diverge {x c : NodeId} (hx : ((diverge d t).node x).copiedFrom ≠ none)
    (hkind : (d.node x).kind.isAugment = false) (hchild : c ∈ (d.node x).children) :
    (diverge d t).node c = d.node c := by
  rw [node_diverge ht] at hx ⊢
  by_cases hmem : x ∈ d.diverging t
  · rw [if_pos hmem] at hx
    exact absurd rfl hx
  · rw [if_neg hmem] at hx
    rw [if_neg fun hcm => hmem ?_]
    have hlt : x < d.model.size := by
      obtain ⟨s, hs⟩ := Option.ne_none_iff_exists'.1 hx
      exact lt_size_of_copies hs
    have hparent := ((hc.regular x hlt).below hkind c hchild).1
    exact parent_mem_takeWhile hc.frozen.up d.model.size t c x (Nat.le_of_lt ht.lt) hcm hparent
      (Option.isSome_iff_ne_none.2 hx)

/-- After `diverge` every copy mirrors what it copies, so nothing is changing any more. -/
theorem diverge_coherent : (diverge d t).Coherent fun _ => False := by
  have hf := hc.frozen
  have hk := keeps_diverge hc ht
  obtain ⟨hsize, hbuilt, -⟩ :=
    foldl_update_frame (fun n => { n with copiedFrom := none }) (d.diverging t) d
  have hdone : ∀ x, (diverge d t).Done x → d.Done x := fun x hx => by
    have hlt : x < d.model.size := by
      cases hx with
      | root hb => exact (hf.root _ _ (hbuilt ▸ hb)).1
      | child hp _ => exact hsize ▸ lt_size_of_parent hp
    exact (later_diverge ht).done_of_lt hf hx hlt
  refine ⟨hk.frozen hf hdone hbuilt fun x p hp => ?_, fun _ hx => hx.elim, fun x hx => ?_,
    fun x s _ hs => ?_⟩
  · exact hf.up x p ((sameFace_diverge ht x).parent ▸ hp)
  · have hx : x < d.model.size := hsize ▸ hx
    refine hk.regular hf (hc.regular x hx) hx (sameFace_diverge ht x).parent
      (sameBody_diverge ht x) ((copiedFrom_diverge ht x).imp_right And.left)
      fun hkind c hchild => ⟨(sameFace_diverge ht c).toSamePlace, fun _ =>
        ⟨sameFace_diverge ht c, (copiedFrom_diverge ht c).imp_right fun hnone =>
          ⟨hnone.1, fun hg => ?_⟩⟩⟩
    exact hnone.2 (.child ((hc.regular x hx).below hkind c hchild).1 hg)
  · obtain ⟨hcopies, hkind, hm⟩ := mirrors_before_diverge hc ht hs
    have hx : ((diverge d t).node x).copiedFrom ≠ none := fun hnone =>
      nomatch (hs : ((diverge d t).node x).copiedFrom = some s).symm.trans hnone
    refine hk.mirrors hf ((hc.regular x (lt_size_of_copies hcopies)).copied s hcopies).2
      (sameBody_diverge ht x) (fun c hchild => ?_) hm
    rw [copied_diverge hc ht hx hkind hchild]
    exact ⟨.refl _, rfl⟩

end Diverge

/-! ## Augments -/

/-- Lists an augment at the node that it adds to. -/
theorem Coherent.listAugment (hc : d.Coherent changing) {t : NodeId} (ht : d.model.Rooted t)
    (a : NodeId) : (d.update t fun n => { n with augmentations := n.augmentations ++ [a] }).Coherent
      changing ∧
    Later d (d.update t fun n => { n with augmentations := n.augmentations ++ [a] }) := by
  have hf := hc.frozen
  have htd : ¬ d.Done t := fun hd => ht.free (hf.grouped hd)
  generalize hfn : (fun n : Node => { n with augmentations := n.augmentations ++ [a] }) = f
  have hnode : ∀ x, (d.node x).SameFace ((d.update t f).node x) ∧
      (d.node x).SameBody ((d.update t f).node x) ∧
      ((d.update t f).node x).copiedFrom = (d.node x).copiedFrom := by
    intro x
    rw [node_update d ht.lt]
    split
    · rename_i hx
      subst hfn hx
      exact ⟨⟨⟨rfl, rfl, rfl⟩, rfl, rfl⟩, ⟨rfl, rfl, rfl, rfl, rfl, rfl, rfl⟩, rfl⟩
    · exact ⟨.refl _, .refl _, rfl⟩
  have hparent : (f (d.node t)).parent = (d.node t).parent := by subst hfn; rfl
  have hsize : (d.update t f).model.size = d.model.size := size_update _ _ _
  have hk : Keeps d (d.update t f) :=
    keeps_update ht.lt htd hparent (by subst hfn; rfl) (by subst hfn; rfl)
  refine ⟨⟨hk.frozen hf (fun x => (done_update ht.lt hparent).1) rfl fun x p hp => ?_,
    fun x hx => ?_, fun x hx => ?_, fun x s hx hs => ?_⟩,
    ⟨hsize.ge, fun x _ => (hnode x).1.parent, fun x _ => (hnode x).1.kind, ⟨[], rfl, by simp⟩,
      rfl, rfl⟩⟩
  · exact hf.up x p ((hnode x).1.parent ▸ hp)
  · obtain ⟨hlt, hd⟩ := hc.undone x hx
    exact ⟨hsize ▸ hlt, fun hd' => hd ((done_update ht.lt hparent).1 hd')⟩
  · rw [hsize] at hx
    exact hk.regular hf (hc.regular x hx) hx (hnode x).1.parent (hnode x).2.1 (.inl (hnode x).2.2)
      fun _ c _ => ⟨(hnode c).1.toSamePlace, fun _ => ⟨(hnode c).1, .inl (hnode c).2.2⟩⟩
  · have hs : d.model.Copies x s := (hnode x).2.2.symm.trans hs
    exact hk.mirrors hf ((hc.regular x (lt_size_of_copies hs)).copied s hs).2 (hnode x).2.1
      (fun c _ => ⟨(hnode c).1, (hnode c).2.2⟩) (hc.mirrors x s hx hs)

theorem Coherent.weaken {changing' : NodeId → Prop} (hc : d.Coherent changing)
    (hle : ∀ x, changing x → changing' x)
    (hundone : ∀ x, changing' x → x < d.model.size ∧ ¬ d.Done x) : d.Coherent changing' :=
  ⟨hc.frozen, hundone, hc.regular, fun x s hx => hc.mirrors x s fun h => hx (hle x h)⟩

/-- A new augment of a `Rooted` target is `Augmenting`, with nothing added yet. -/
theorem augmenting_add {t : NodeId} (hc : d.Coherent fun _ => False) (ht : d.model.Rooted t)
    (hcall : (d.node t).kind ≠ .rpc) {n : Node} (hhome : n.moduleName ∈ d.model.moduleNames)
    (hkind : n.kind = .augment t) (hparent : n.parent = none) (hchildren : n.children = [])
    (huses : n.uses = []) (hcopied : n.copiedFrom = none) :
    (d.add n).1.Augmenting t d.model.size ∧ Grows (fun _ => False) d (d.add n).1 := by
  have hg₀ : Grows (fun _ => False) d (d.add n).1 := grows_add d fun p hp => by
    rw [hparent] at hp
    cases hp
  have hnode : (d.add n).1.node d.model.size = d.completed n := node_add_self d n
  have hc₀ : (d.add n).1.Coherent (· = t) := by
    refine Coherent.weaken (hc.add (n := n) (fun p hp => ?_) hhome hchildren huses hcopied)
      (fun _ hx => hx.elim) ?_
    · rw [hparent] at hp
      cases hp
    · rintro x rfl
      have hr := hg₀.later.rooted hc.frozen ht
      exact ⟨hr.lt, fun hd => ht.free (hc.frozen.grouped (hg₀.done_of_lt hc.frozen hd ht.lt))⟩
  refine ⟨⟨hc₀, hg₀.later.rooted hc.frozen ht, ?_, ht.lt, ?_, ?_, ?_⟩, hg₀⟩
  · rw [hg₀.kind ht.lt]; exact hcall
  · rw [size_add]; exact Nat.lt_succ_self _
  · have hself : ((d.add n).1.node d.model.size).kind = n.kind := by rw [hnode]; rfl
    rw [hself, hkind]; rfl
  · rw [hnode]; exact hcopied

/-- An augment leaves a `Coherent` draft behind, if `provide` provides groupings. -/
theorem addAugment_coherent {names : List String} {provide : Provide}
    (hprovide : Provides names provide) {moduleName : String} (hm : moduleName ∈ names)
    (hc : d.Coherent fun _ => False) (hroots : ∀ r ∈ d.model.roots, d.model.Rooted r)
    (hn : d.model.moduleNames = names) {augment : Source.Augment} {id : NodeId}
    (h : addAugment provide moduleName augment d = .ok (d', id)) :
    (d'.Coherent fun _ => False) ∧ Later d d' := by
  unfold addAugment at h
  obtain ⟨t, htarget, h⟩ := bind_eq_ok.1 h
  obtain ⟨d₁, hchildren, h⟩ := bind_eq_ok.1 h
  obtain ⟨d₂, huses, h⟩ := bind_eq_ok.1 h
  cases h
  obtain ⟨ht, hcall⟩ := resolveTarget_rooted hc hroots htarget
  let n : Node := { kind := .augment t, moduleName := moduleName, name := augment.target,
                    description := augment.description }
  obtain ⟨h₀, hg₀⟩ := augmenting_add (n := n) hc ht hcall (hn ▸ hm) rfl rfl rfl rfl rfl
  have h₁ := foldlM_augments names
    (fun d d' s h hn hok => augmentChild_augments hprovide hm h hn hok) h₀ hn hchildren
  have h₂ := foldlM_augments names
    (fun d d' s h hn hok => augmentUse_augments hprovide hm h hn hok) h₁.augmenting
    (h₁.grows.modules.trans hn) huses
  obtain ⟨hlisted, hlater⟩ :=
    h₂.augmenting.coherent.listAugment h₂.augmenting.rooted d.model.size
  have hrooted := hlater.rooted h₂.augmenting.coherent.frozen h₂.augmenting.rooted
  exact ⟨diverge_coherent hlisted hrooted, hg₀.later.trans (h₁.grows.later.trans
    (h₂.grows.later.trans (hlater.trans (later_diverge hrooted))))⟩

end Draft

end RestSpec.DataModel
