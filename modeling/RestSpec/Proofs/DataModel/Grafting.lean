/-
What an augment does to a model. It adds children to its target, which show what its body stands
for, and lists them; all other nodes that were there keep their labels and their children. Nothing
becomes a copy: the target and nodes around it stop being copies, if they are.
-/
import RestSpec.Proofs.DataModel.Unfolding

namespace RestSpec.DataModel

open Relation (ReflTransGen)

/-- The node `y` is `x` or lies below it, by following `parent` upwards. -/
def Beneath (model : DataModel) (y x : NodeId) : Prop :=
  ReflTransGen (fun a b => (model.node a).parent = some b) y x

section Beneath

variable {model : DataModel} {x y : NodeId}

theorem Beneath.le (hup : ∀ id p, (model.node id).parent = some p → p < id)
    (h : model.Beneath y x) : x ≤ y := by
  induction h with
  | refl => exact le_rfl
  | tail _ hp ih => exact le_trans (Nat.le_of_lt (hup _ _ hp)) ih

theorem Beneath.mono {model' : DataModel}
    (hsame : ∀ x, (model'.node x).parent = (model.node x).parent) (h : model.Beneath y x) :
    model'.Beneath y x :=
  ReflTransGen.mono (fun a _ hp => (hsame a).trans hp) _ _ h

theorem Beneath.free (h : model.Beneath y x) (hy : ¬ model.Grouped y) : ¬ model.Grouped x := by
  induction h with
  | refl => exact hy
  | tail _ hp ih => exact fun hg => ih (.child hp hg)

end Beneath

namespace Draft

variable {d d' d'' : Draft} {σ : Setting} {t a : NodeId}

theorem Faithful.since (h : Faithful σ d) {n : NodeId} (hn : σ.since ≤ n) :
    Faithful { σ with since := n } d :=
  ⟨h.outlines, h.heads, h.lawful, fun x hx => h.asMade x (le_trans hn hx), h.distinct, h.unfolds⟩

/-! ## Marks -/

/-- The nodes `ids` have got `augmentedBy` marks, and are listed among the `children` of the augment
`a`. -/
structure Marks (a : NodeId) (ids : List NodeId) (d d' : Draft) : Prop where
  size : d'.model.size = d.model.size
  node : ∀ x, x ≠ a → d'.node x = { d.node x with augmentedBy := (d'.node x).augmentedBy }
  lists : (d'.node a).children = (d.node a).children ++ ids

theorem Marks.trans {ids ids' : List NodeId} (h : Marks a ids d d') (h' : Marks a ids' d' d'') :
    Marks a (ids ++ ids') d d'' := by
  refine ⟨h'.size.trans h.size, fun x hx => ?_, by rw [h'.lists, h.lists, List.append_assoc]⟩
  rw [h'.node x hx, h.node x hx]

theorem marks_markAugmented (moduleName : String) {c : NodeId} (ha : a < d.model.size)
    (hc : c < d.model.size) (hne : a ≠ c) : Marks a [c] d (markAugmented moduleName a d c) := by
  have hsize : (d.markModule moduleName c).model.size = d.model.size := size_update _ _ _
  have hother : ∀ x, x ≠ a →
      (markAugmented moduleName a d c).node x = (d.markModule moduleName c).node x :=
    fun x hx => node_update_of_ne _ (hsize.symm ▸ ha) _ hx
  refine ⟨(size_update _ _ _).trans hsize, fun x hx => ?_, ?_⟩
  · rw [hother x hx]
    unfold markModule
    rw [node_update d hc]
    split
    · rename_i hxc
      rw [hxc]
    · rfl
  · have hself : (d.markModule moduleName c).node a = d.node a := node_update_of_ne d hc _ hne
    have happend : (markAugmented moduleName a d c).node a =
        { (d.markModule moduleName c).node a with
          children := ((d.markModule moduleName c).node a).children ++ [c] } :=
      node_appendChild (hsize.symm ▸ ha) c
    rw [happend, hself]

theorem Faithful.mark (h : Faithful σ d) (haug : d.Augmenting t a) {c : NodeId}
    (hadded : d.Added t a c) (hnew : c ∉ (d.node a).children) (moduleName : String) :
    Faithful σ (markAugmented moduleName a d c) := by
  have hc := haug.coherent
  have hcd : ¬ d.Done c := hc.frozen.not_done_of_parent hadded.place (haug.undone t (.inl rfl))
  have had : ¬ d.Done a := haug.undone a (.inr rfl)
  have hsize : (d.markModule moduleName c).model.size = d.model.size := size_update _ _ _
  have hself : (d.markModule moduleName c).node a = d.node a :=
    node_update_of_ne d hadded.lt _ (Nat.ne_of_lt hadded.order)
  have hmarked : Faithful σ (d.markModule moduleName c) := by
    refine h.step hc (ages_update hadded.lt rfl) (fun x hx => ?_) rfl rfl
      (fun x hx hx' => absurd (hsize ▸ hx') (Nat.not_lt.2 hx)) fun x => .inl ?_
    · exact node_update_of_ne d hadded.lt _ fun hxc => hcd (hxc ▸ hx)
    · unfold markModule
      rw [node_update d hadded.lt]
      split
      · rename_i hxc
        rw [hxc]
      · rfl
  exact hmarked.appendChild (haug.markModule_coherent moduleName hadded) (hsize.symm ▸ haug.lt)
    (fun hd => had ((done_update hadded.lt rfl).1 hd)) (hself.symm ▸ hnew)

theorem Faithful.marks (moduleName : String) {start : Draft} :
    ∀ (ids : List NodeId) (d : Draft), Faithful σ d → d.Augmenting t a →
      Grows (fun x => x = t ∨ x = a) start d →
      (∀ c ∈ ids, start.model.size ≤ c ∧ d.Added t a c) → ids.Nodup →
      (∀ c ∈ ids, c ∉ (d.node a).children) →
      Faithful σ (ids.foldl (markAugmented moduleName a) d) ∧
        Marks a ids d (ids.foldl (markAugmented moduleName a) d)
  | [], _, h, _, _, _, _, _ => ⟨h, rfl, fun _ _ => rfl, (List.append_nil _).symm⟩
  | c :: ids, d, h, haug, hg, hadded, hnodup, hnew => by
    obtain ⟨hle, hc⟩ := hadded c List.mem_cons_self
    obtain ⟨hnot, hnodup⟩ := List.nodup_cons.1 hnodup
    obtain ⟨haug', hg', hkept⟩ := haug.mark moduleName hc hg hle
    have hmark := marks_markAugmented moduleName haug.lt hc.lt (Nat.ne_of_lt hc.order)
    have h' := h.mark haug hc (hnew c List.mem_cons_self) moduleName
    obtain ⟨hfaithful, hmarks⟩ := Faithful.marks moduleName ids _ h' haug' hg'
      (fun x hx => by
        obtain ⟨hle, hx⟩ := hadded x (List.mem_cons_of_mem _ hx)
        exact ⟨hle, hkept x hx⟩)
      hnodup (fun x hx hmem => by
        rw [hmark.lists, List.mem_append, List.mem_singleton] at hmem
        rcases hmem with hmem | rfl
        · exact hnew x (List.mem_cons_of_mem _ hx) hmem
        · exact hnot hx)
    exact ⟨hfaithful, hmark.trans hmarks⟩

/-! ## Bodies of augments -/

/-- What an augment `a` `Gains` for its target `t` is listed at `a` too, so every child of `t` was
there before or is among the `children` of `a`. -/
structure Enlarges (σ : Setting) (t a : NodeId) (ss : List Shape) (d d' : Draft) : Prop
    extends Gains σ t ss d d' where
  listed : ∀ c ∈ (d'.node t).children, c ∈ (d.node t).children ∨ c ∈ (d'.node a).children

theorem Enlarges.trans {ss ss' : List Shape} (h : Enlarges σ t a ss d d')
    (h' : Enlarges σ t a ss' d' d'') (haug : d.Augmenting t a) (hs : Augments t a d d')
    (hs' : Augments t a d' d'') : Enlarges σ t a (ss ++ ss') d d'' := by
  refine ⟨h.toGains.trans h'.toGains hs.augmenting.coherent hs'.grows hs.grows.size ?_,
    fun c hc => ?_⟩
  · rintro x (rfl | rfl)
    · exact haug.rooted.lt
    · exact haug.lt
  · rcases h'.listed c hc with hc | hc
    · rcases h.listed c hc with hc | hc
      · exact .inl hc
      · obtain ⟨cs, us, hnode⟩ := hs'.grows.grown a hs.augmenting.lt
        rw [hnode]
        exact .inr (List.mem_append_left _ hc)
    · exact .inr hc

/-- What the target has gained is marked and listed by `a`, so that `Gains` becomes `Enlarges`. -/
theorem Gains.enlarges (ids : List NodeId) {ss : List Shape} {moduleName : String}
    (h : Gains σ t ss d d') (haug : d.Augmenting t a) (haug' : d'.Augmenting t a)
    (hg : Grows (fun x => x = t ∨ x = a) d d')
    (hids : (d'.node t).children = (d.node t).children ++ ids)
    (hadded : ∀ c ∈ ids, d.model.size ≤ c ∧ d'.Added t a c)
    (hlist : (d'.node a).children = (d.node a).children) :
    Enlarges σ t a ss d (ids.foldl (markAugmented moduleName a) d') := by
  have hnodup : ids.Nodup := by
    have hall := h.faithful.distinct t
    rw [hids] at hall
    exact hall.of_append_right
  obtain ⟨hfaithful, hmarks⟩ := h.faithful.marks moduleName ids d' haug' hg hadded
    hnodup fun c hc hmem => by
      rw [hlist] at hmem
      exact absurd ((haug.coherent.regular a haug.lt).children c hmem).2
        (Nat.not_lt.2 (hadded c hc).1)
  generalize ids.foldl (markAugmented moduleName a) d' = d'' at hfaithful hmarks
  have hchildren : ∀ x, x ≠ a → (d''.node x).children = (d'.node x).children := fun x hx => by
    rw [hmarks.node x hx]
  have hsame : SameBelow d'.model d''.model fun x => d.model.size ≤ x ∧ x < d'.model.size := by
    have hne : ∀ x, d.model.size ≤ x ∧ x < d'.model.size → x ≠ a := by
      rintro x ⟨hle, -⟩ rfl
      exact absurd haug.lt (Nat.not_lt.2 hle)
    refine ⟨?_, fun x hx => ?_, fun x hx => hchildren x (hne x hx)⟩
    · rintro x ⟨hle, hlt⟩ c hc
      obtain ⟨hxc, hsize⟩ := (haug'.coherent.regular x hlt).children c hc
      exact ⟨le_trans hle (Nat.le_of_lt hxc), hsize⟩
    · show (d''.node x).label = (d'.node x).label
      rw [hmarks.node x (hne x hx)]
      rfl
  obtain ⟨ids', hids', hbounds, hshows⟩ := h.children
  refine ⟨⟨hfaithful, ids', (hchildren t haug.ne).trans hids',
    fun id hid => hmarks.size ▸ hbounds id hid, hshows.frame hsame hbounds⟩, fun c hc => ?_⟩
  rw [hchildren t haug.ne, hids] at hc
  rcases List.mem_append.1 hc with hc | hc
  · exact .inl hc
  · rw [hmarks.lists]
    exact .inr (List.mem_append_right _ hc)

section Serves

variable {provide : Provide} (hs : Serves σ provide) {moduleName : String}
  (hm : moduleName ∈ σ.sources.map (·.name)) (haug : d.Augmenting t a) (h : Faithful σ d)

include hs hm haug h

theorem augmentChild_enlarges {s : Source.Statement}
    (hok : augmentChild provide moduleName t a d s = .ok d') :
    ∃ ss, Enlarges σ t a ss d d' ∧ Expands σ.sources moduleName moduleName ⟨[s], []⟩ ss := by
  unfold augmentChild at hok
  obtain ⟨⟨d₁, id⟩, hadd, hok⟩ := bind_eq_ok.1 hok
  cases hok
  have ht := haug.rooted.lt
  have htd := haug.undone t (.inl rfl)
  have hplace : ∀ p, some t = some p → p < d.model.size ∧ ¬ d.Done p := by
    rintro p ⟨⟩
    exact ⟨ht, htd⟩
  obtain ⟨rfl, hadds⟩ :=
    addStatement_adds hs.provides hm s d d₁ haug.coherent h.moduleNames hplace hadd
  obtain ⟨hf₁, shape, hshows, hexpands⟩ :=
    addStatement_shows hs hm s d d₁ haug.coherent h hplace hadd
  obtain ⟨haug₂, hg₂, hadded⟩ := haug.declare hadds (Kind.takes_linkedKind haug.call s.kind)
  have hgains := gains_appendChild hadds haug.coherent ht htd hf₁ hshows
  have ht₁ : t < d₁.model.size := lt_of_lt_of_le ht hadds.grows.size
  refine ⟨[shape], hgains.enlarges [d.model.size] haug haug₂ hg₂ ?_ (by simpa using hadded) ?_,
    hexpands⟩
  · rw [node_appendChild ht₁, hadds.kept t ht]
  · rw [← hadds.kept a haug.lt]
    exact congrArg Node.children (node_update_of_ne d₁ ht₁ _ haug.ne.symm)

theorem augmentUse_enlarges {name : String}
    (hok : augmentUse provide moduleName t a d name = .ok d') :
    ∃ ss, Enlarges σ t a ss d d' ∧ Expands σ.sources moduleName moduleName ⟨[], [name]⟩ ss := by
  unfold augmentUse at hok
  obtain ⟨d₂, huse, hok⟩ := bind_eq_ok.1 hok
  cases hok
  obtain ⟨ids, ss, hu⟩ := applyUse_uses hs hm haug.coherent h haug.rooted.lt
    (haug.undone t (.inl rfl)) haug.lt (haug.undone a (.inr rfl)) huse
  obtain ⟨d₁, key, g, hc₁, hg₁, hb, huses⟩ := hu.steps
  obtain ⟨haug₂, hg₂, hadded, hids⟩ := haug.use hc₁ hg₁ hb huses
  have hchildren : (d₂.node t).children = (d.node t).children ++ ids := by
    rw [huses.filled, hg₁.kept t haug.rooted.lt not_false]
  have hgains : Gains σ t ss d d₂ := by
    refine ⟨hu.faithful, ids, hchildren, fun id hid => ?_, hu.shows⟩
    obtain ⟨hle, hlt⟩ := huses.bounds id hid
    exact ⟨le_trans hg₁.size hle, hlt⟩
  rw [hids]
  refine ⟨ss, hgains.enlarges ids haug haug₂ hg₂ hchildren hadded ?_, hu.expands⟩
  rw [huses.recorded haug.ne.symm, hg₁.kept a haug.lt not_false]

end Serves

section Folds

variable {provide : Provide} (hs : Serves σ provide) {moduleName : String}
  (hm : moduleName ∈ σ.sources.map (·.name))

include hs hm

theorem foldlM_augmentChild_enlarges :
    ∀ (children : List Source.Statement) (d d' : Draft), d.Augmenting t a → Faithful σ d →
      children.foldlM (augmentChild provide moduleName t a) d = .ok d' →
      ∃ ss, Enlarges σ t a ss d d' ∧ Expands σ.sources moduleName moduleName ⟨children, []⟩ ss
  | [], d, d', _, h, hok => by
    cases hok
    exact ⟨[], ⟨.refl h t, fun _ hc => .inl hc⟩, .nil⟩
  | s :: rest, d, d', haug, h, hok => by
    rw [List.foldlM_cons] at hok
    obtain ⟨d₁, h₁, hok⟩ := bind_eq_ok.1 hok
    have hstep := augmentChild_augments hs.provides hm haug h.moduleNames h₁
    obtain ⟨ss, henlarges, hexpands⟩ := augmentChild_enlarges hs hm haug h h₁
    have hsteps := foldlM_augments (σ.sources.map (·.name))
      (fun d d' s h hn hok => augmentChild_augments hs.provides hm h hn hok) hstep.augmenting
      henlarges.faithful.moduleNames hok
    obtain ⟨ss', henlarges', hrest⟩ :=
      foldlM_augmentChild_enlarges rest d₁ d' hstep.augmenting henlarges.faithful hok
    refine ⟨ss ++ ss', henlarges.trans henlarges' haug hstep hsteps, ?_⟩
    cases hexpands with
    | child hbelow hnil =>
      cases hnil
      exact .child hbelow hrest

theorem foldlM_augmentUse_enlarges :
    ∀ (uses : List String) (d d' : Draft), d.Augmenting t a → Faithful σ d →
      uses.foldlM (augmentUse provide moduleName t a) d = .ok d' →
      ∃ ss, Enlarges σ t a ss d d' ∧ Expands σ.sources moduleName moduleName ⟨[], uses⟩ ss
  | [], d, d', _, h, hok => by
    cases hok
    exact ⟨[], ⟨.refl h t, fun _ hc => .inl hc⟩, .nil⟩
  | name :: rest, d, d', haug, h, hok => by
    rw [List.foldlM_cons] at hok
    obtain ⟨d₁, h₁, hok⟩ := bind_eq_ok.1 hok
    have hstep := augmentUse_augments hs.provides hm haug h.moduleNames h₁
    obtain ⟨ss, henlarges, hexpands⟩ := augmentUse_enlarges hs hm haug h h₁
    have hsteps := foldlM_augments (σ.sources.map (·.name))
      (fun d d' s h hn hok => augmentUse_augments hs.provides hm h hn hok) hstep.augmenting
      henlarges.faithful.moduleNames hok
    obtain ⟨ss', henlarges', hrest⟩ :=
      foldlM_augmentUse_enlarges rest d₁ d' hstep.augmenting henlarges.faithful hok
    exact ⟨ss ++ ss', henlarges.trans henlarges' haug hstep hsteps, hexpands.append hrest⟩

end Folds

/-! ## Divergence -/

/-- An augment has been listed among the `augmentations` of its target `t`, which is no copy any
more; `copiedFrom` may have been cleared for nodes above it as well. -/
structure Attached (t : NodeId) (d d' : Draft) : Prop where
  size : d'.model.size = d.model.size
  node : ∀ x, d'.node x = { d.node x with
    augmentations := (d'.node x).augmentations, copiedFrom := (d'.node x).copiedFrom }
  touched : (d'.node t).augmentations ≠ []
  untouched : ∀ x, x ≠ t → (d'.node x).augmentations = (d.node x).augmentations
  target : (d'.node t).copiedFrom = none
  copied : ∀ x, (d'.node x).copiedFrom = (d.node x).copiedFrom ∨
    (d'.node x).copiedFrom = none ∧ d.model.Beneath t x
  modules : d'.model.modules = d.model.modules
  built : d'.built = d.built

theorem attached (ht : d.model.Rooted t) (a : NodeId) : Attached t d
    (diverge (d.update t fun n => { n with augmentations := n.augmentations ++ [a] }) t) := by
  generalize hfn : (fun n : Node => { n with augmentations := n.augmentations ++ [a] }) = f
  have hsize : (d.update t f).model.size = d.model.size := size_update _ _ _
  have hnode : ∀ x, (d.update t f).node x =
      { d.node x with augmentations := ((d.update t f).node x).augmentations } := fun x => by
    rw [node_update d ht.lt]
    split
    · rename_i hx
      subst hfn hx
      rfl
    · rfl
  have hparent : ∀ x, ((d.update t f).node x).parent = (d.node x).parent := fun x => by
    rw [hnode x]
  have hcopied : ∀ x, ((d.update t f).node x).copiedFrom = (d.node x).copiedFrom := fun x => by
    rw [hnode x]
  have hother : ∀ x, x ≠ t → (d.update t f).node x = d.node x := fun x hx =>
    node_update_of_ne d ht.lt f hx
  have hself : (d.update t f).node t =
      { d.node t with augmentations := (d.node t).augmentations ++ [a] } := by
    rw [node_update_self d ht.lt f, ← hfn]
  have ht' : (d.update t f).model.Rooted t := by
    refine ⟨hsize.symm ▸ ht.lt, fun hg => ht.free ((grouped_update ht.lt ?_ ?_).1 hg), ?_⟩
    · rw [← hfn]
    · rw [← hfn]
    · show ((d.update t f).node t).kind.isAugment = false
      rw [hself]
      exact ht.kind
  have hdiverge := node_diverge ht'
  obtain ⟨hsize', hbuilt, hmodules⟩ := foldl_update_frame
    (fun n => { n with copiedFrom := none }) ((d.update t f).diverging t) (d.update t f)
  refine ⟨hsize'.trans hsize, fun x => ?_, ?_, fun x hx => ?_, ?_, fun x => ?_, hmodules, hbuilt⟩
  · rw [hdiverge]
    split <;> rw [hnode x]
  · have haug : ((diverge (d.update t f) t).node t).augmentations =
        (d.node t).augmentations ++ [a] := by
      rw [hdiverge]
      split <;> rw [hself]
    rw [haug]
    simp
  · rw [hdiverge]
    split <;> rw [hother x hx]
  · rw [hdiverge]
    split
    · rfl
    · rename_i hmem
      -- the target comes first among those that diverge, if it is a copy
      cases hcopy : (d.node t).copiedFrom with
      | none => rw [hcopied, hcopy]
      | some s =>
        refine absurd ?_ hmem
        unfold diverging
        rw [List.takeWhile_cons, if_pos (by rw [hcopied, hcopy]; rfl)]
        exact List.mem_cons_self
  · rw [hdiverge]
    split
    · rename_i hmem
      refine .inr ⟨rfl, ancestorsWithin_all (P := d.model.Beneath t) (fun y p hp hy => ?_) _ t .refl
        x ((List.takeWhile_prefix _).subset hmem)⟩
      exact hy.tail ((hparent y).symm.trans hp)
    · exact .inl (hcopied x)

section Attached

variable (hatt : Attached t d d')

include hatt

/-- `Attached` makes no copies: what is one afterwards was one of the same node before. -/
theorem Attached.copies {x s : NodeId} (hs : d'.model.Copies x s) : d.model.Copies x s := by
  have hs : (d'.node x).copiedFrom = some s := hs
  rcases hatt.copied x with hsame | ⟨hnone, -⟩
  · exact hsame.symm.trans hs
  · rw [hnone] at hs
    cases hs

theorem Attached.lawful {x : NodeId} (h : d.Lawful x) : d'.Lawful x := by
  have hconfig : ∀ x, (d'.node x).config = (d.node x).config := fun x => by rw [hatt.node x]
  have hreference : ∀ x, (d'.node x).reference = (d.node x).reference := fun x => by
    rw [hatt.node x]
  refine ⟨?_, fun s hs => ?_, fun s hs hro => ?_, fun s hs => ?_⟩
  · have hconf := h.configured
    have hparents : (fun p => (d'.node p).config) = fun p => (d.node p).config := funext hconfig
    unfold Configured at hconf ⊢
    rw [hparents, hatt.node x]
    exact hconf
  · rw [hreference, hreference]
    exact h.reference s (hatt.copies hs)
  · rw [hconfig] at hro ⊢
    exact h.readOnly s (hatt.copies hs) hro
  · have hxt : x ≠ t := by
      rintro rfl
      have hs : (d'.node x).copiedFrom = some s := hs
      rw [hatt.target] at hs
      cases hs
    rw [hatt.untouched x hxt]
    exact h.untouched s (hatt.copies hs)

/-- Nodes of groupings stay as they are when an augment is `Attached`, for its target is `Rooted`
and so lies in none. -/
theorem Attached.kept_done (hf : d.Frozen) (ht : d.model.Rooted t) {x : NodeId} (hx : d.Done x) :
    d'.node x = d.node x := by
  have hgrouped := hf.grouped hx
  have hxt : x ≠ t := fun hxt => ht.free (hxt ▸ hgrouped)
  have hcopied : (d'.node x).copiedFrom = (d.node x).copiedFrom := by
    rcases hatt.copied x with hsame | ⟨-, hbeneath⟩
    · exact hsame
    · exact absurd hgrouped (hbeneath.free ht.free)
  rw [hatt.node x, hatt.untouched x hxt, hcopied]

/-- A draft stays `Faithful` when an augment is `Attached` to a node that was there before the nodes
the setting counts as new. -/
theorem Faithful.attach {changing : NodeId → Prop} (h : Faithful σ d) (hc : d.Coherent changing)
    (ht : d.model.Rooted t) (hsince : t < σ.since) : Faithful σ d' := by
  have houtlines : d'.model.outlines = d.model.outlines :=
    congrArg (List.map Module.outline) hatt.modules
  refine ⟨houtlines.trans h.outlines, ?_,
    fun x hx => hatt.lawful (h.lawful x (hatt.size ▸ hx)), fun x hx hlt => ?_, fun x => ?_,
    fun name g hb => ?_⟩
  · exact (heads_of_outlines houtlines).trans h.heads
  · have hmade := h.asMade x hx (hatt.size ▸ hlt)
    have htx : t < x := lt_of_lt_of_le hsince hx
    have hcopied : (d'.node x).copiedFrom = (d.node x).copiedFrom := by
      rcases hatt.copied x with hsame | ⟨-, hbeneath⟩
      · exact hsame
      · exact absurd (hbeneath.le hc.frozen.up) (Nat.not_le.2 htx)
    refine ⟨hatt.lawful hmade.toLawful, ?_, ?_⟩
    · rw [hatt.untouched x (Nat.ne_of_gt htx)]
      exact hmade.augmentations
    · rw [hcopied, hatt.node x]
      exact hmade.introduced
  · rw [hatt.node x]
    exact h.distinct x
  · rw [hatt.built] at hb
    exact (h.unfolds name g hb).kept hc.frozen hb fun x => hatt.kept_done hc.frozen ht

end Attached

/-! ## Augments -/

/-- An augment has added children that show the shapes `ss` to the target `t`, and the draft is
`Faithful` with all of them counted as old. -/
structure Grafted (σ : Setting) (t : NodeId) (ss : List Shape) (d d' : Draft) : Prop where
  faithful : Faithful { σ with since := d.model.size } d'
  size : d.model.size ≤ d'.model.size
  label : ∀ x < d.model.size, (d'.node x).label = (d.node x).label
  parent : ∀ x < d.model.size, (d'.node x).parent = (d.node x).parent
  introduced : ∀ x < d.model.size, (d'.node x).introducedBy = (d.node x).introducedBy
  kept : ∀ x < d.model.size, x ≠ t → (d'.node x).children = (d.node x).children ∧
    (d'.node x).augmentations = (d.node x).augmentations
  copied : ∀ x < d.model.size, (d'.node x).copiedFrom = (d.node x).copiedFrom ∨
    (d'.node x).copiedFrom = none ∧ d'.model.Beneath t x
  touched : (d'.node t).augmentations ≠ []
  grown : ∃ ids, (d'.node t).children = (d.node t).children ++ ids ∧
    (∀ id ∈ ids, d.model.size ≤ id ∧ id < d'.model.size) ∧ d'.model.ShowsAll ids ss
  listed : ∀ c ∈ (d'.node t).children,
    c ∈ (d.node t).children ∨ c ∈ (d'.node d.model.size).children
  augment : (d'.node d.model.size).kind.isAugment = true

/-- What an augment `Enlarges` its target by is what is `Grafted` once it is `Attached`. -/
theorem Grafted.of_attached {d₀ d₂ : Draft} {ss : List Shape} (ht : d.model.Rooted t)
    (hg₀ : Grows (fun _ => False) d d₀) (haug : Augments t d.model.size d₀ d₂)
    (h : Enlarges { σ with since := d.model.size } t d.model.size ss d₀ d₂)
    (hatt : Attached t d₂ d') : Grafted σ t ss d d' := by
  have hg : Grows (fun x => x = t ∨ x = d.model.size) d d₂ :=
    (hg₀.weaken fun _ _ hx => hx.elim).trans haug.grows fun _ _ hx => hx
  have hold : d₀.node t = d.node t := hg₀.kept t ht.lt not_false
  have hparent : ∀ x, (d'.node x).parent = (d₂.node x).parent := fun x => by rw [hatt.node x]
  have hchildren : ∀ x, (d'.node x).children = (d₂.node x).children := fun x => by
    rw [hatt.node x]
  have hlabel : ∀ x, (d'.node x).label = (d₂.node x).label := fun x => by
    rw [hatt.node x]
    rfl
  have hkept : ∀ x < d.model.size, x ≠ t → d₂.node x = d.node x := fun x hx hxt =>
    hg.kept x hx (by simp [hxt, Nat.ne_of_lt hx])
  have hsame : SameBelow d₂.model d'.model fun _ => True :=
    ⟨fun _ _ _ _ => trivial, fun x _ => hlabel x, fun x _ => hchildren x⟩
  refine ⟨h.faithful.attach hatt haug.augmenting.coherent haug.augmenting.rooted ht.lt,
    hatt.size.symm ▸ hg.size, fun x hx => (hlabel x).trans (hg.ages.label hx),
    fun x hx => (hparent x).trans (hg.parent hx), fun x hx => ?_, fun x hx hxt => ⟨?_, ?_⟩,
    fun x hx => ?_, hatt.touched, ?_, fun c hc => ?_, ?_⟩
  · rw [hatt.node x]
    exact hg.introducedBy hx
  · rw [hchildren, hkept x hx hxt]
  · rw [hatt.untouched x hxt, hkept x hx hxt]
  · rcases hatt.copied x with hcopied | ⟨hnone, hbeneath⟩
    · exact .inl (hcopied.trans (hg.copiedFrom hx))
    · exact .inr ⟨hnone, hbeneath.mono hparent⟩
  · obtain ⟨ids, hids, hbounds, hshows⟩ := h.children
    refine ⟨ids, by rw [hchildren, hids, hold], fun id hid => ?_,
      hshows.frame hsame fun _ _ => trivial⟩
    obtain ⟨hle, hlt⟩ := hbounds id hid
    exact ⟨le_trans hg₀.size hle, hatt.size.symm ▸ hlt⟩
  · rw [hchildren] at hc ⊢
    rw [← hold]
    exact h.listed c hc
  · have hkind : (d'.node d.model.size).kind = (d₂.node d.model.size).kind :=
      congrArg Label.kind (hlabel d.model.size)
    rw [hkind]
    exact haug.augmenting.kind

theorem addAugment_grafts {provide : Provide}
    (hs : ∀ n, Serves { σ with since := n } provide) {moduleName : String}
    (hm : moduleName ∈ σ.sources.map (·.name)) (hc : d.Coherent fun _ => False)
    (hroots : ∀ r ∈ d.model.roots, d.model.Rooted r) (h : Faithful σ d)
    (hsince : σ.since ≤ d.model.size) {augment : Source.Augment} {id : NodeId}
    (hok : addAugment provide moduleName augment d = .ok (d', id)) :
    ∃ t ss, resolveTarget d.model moduleName augment.target = .ok t ∧
      Expands σ.sources moduleName moduleName augment.body ss ∧ Grafted σ t ss d d' := by
  unfold addAugment at hok
  obtain ⟨t, htarget, hok⟩ := bind_eq_ok.1 hok
  obtain ⟨d₁, hchildren, hok⟩ := bind_eq_ok.1 hok
  obtain ⟨d₂, huses, hok⟩ := bind_eq_ok.1 hok
  cases hok
  obtain ⟨ht, hcall⟩ := resolveTarget_rooted hc hroots htarget
  have hn := h.moduleNames
  let n : Node := { kind := .augment t, moduleName := moduleName, name := augment.target,
                    description := augment.description }
  obtain ⟨h₀, hg₀⟩ := augmenting_add (n := n) hc ht hcall (hn ▸ hm) rfl rfl rfl rfl rfl
  have hf₀ : Faithful { σ with since := d.model.size } (d.add n).1 :=
    (h.since hsince).add hc nofun rfl rfl rfl rfl
  have hprovide := (hs d.model.size).provides
  have hstep₁ := foldlM_augments (σ.sources.map (·.name))
    (fun d d' s h hn hok => augmentChild_augments hprovide hm h hn hok) h₀ hf₀.moduleNames hchildren
  obtain ⟨own, henlarges₁, hown⟩ := foldlM_augmentChild_enlarges (hs d.model.size) hm _ _ _ h₀ hf₀
    hchildren
  have hstep₂ := foldlM_augments (σ.sources.map (·.name))
    (fun d d' s h hn hok => augmentUse_augments hprovide hm h hn hok) hstep₁.augmenting
    henlarges₁.faithful.moduleNames huses
  obtain ⟨used, henlarges₂, hused⟩ := foldlM_augmentUse_enlarges (hs d.model.size) hm _ _ _
    hstep₁.augmenting henlarges₁.faithful huses
  have henlarges := henlarges₁.trans henlarges₂ h₀ hstep₁ hstep₂
  refine ⟨t, own ++ used, htarget, hown.append hused, ?_⟩
  exact .of_attached ht hg₀ (hstep₁.trans hstep₂) henlarges
    (attached hstep₂.augmenting.rooted d.model.size)

end Draft

end RestSpec.DataModel
