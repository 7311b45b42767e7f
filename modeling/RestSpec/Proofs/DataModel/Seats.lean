/-
Where nodes stand. A new node waits for its place, which it gets once: among the children of its
parent or, if it has none, in one of the lists of its module. Every builder keeps what all other
nodes have and leaves at most the node that it gives back waiting, so after linking no node waits.
An augment lists what it adds too, but these nodes stand below its target.
-/
import RestSpec.Proofs.DataModel.Substitution

namespace RestSpec.DataModel

/-- What a module lists: `groupings`, `data`, `rpcs` and `augments`, one after the other. -/
def Module.tops (m : Module) : List NodeId := m.groupings ++ m.data ++ m.rpcs ++ m.augments

theorem Module.count_tops (m : Module) (x : NodeId) : m.tops.count x =
    m.groupings.count x + m.data.count x + m.rpcs.count x + m.augments.count x := by
  simp only [Module.tops, List.count_append]

/-- What the `modules` list, module after module. -/
def tops (model : DataModel) : List NodeId := model.modules.flatMap Module.tops

/-- The node that the `children` of a node have for a `parent`: an augment lists children of its
target. -/
def Node.host (n : Node) (id : NodeId) : NodeId :=
  match n.kind, n.parent with
  | .augment target, none => target
  | _, _ => id

theorem Node.host_of_kind {n : Node} (h : n.kind.isAugment = false) (id : NodeId) :
    n.host id = id := by
  unfold host
  split
  · rename_i hk _; rw [hk] at h; cases h
  · rfl

theorem Node.host_of_parent {n : Node} {p : NodeId} (h : n.parent = some p) (id : NodeId) :
    n.host id = id := by
  unfold host
  split
  · rename_i hp; rw [h] at hp; cases hp
  · rfl

theorem isAugment_of_isAugmentable {k : Kind} (h : isAugmentable k = true) :
    k.isAugment = false := by
  cases k with
  | augment t => cases h
  | _ => rfl

namespace Draft

variable {d d' d'' : Draft} {names : List String} {waiting : NodeId → Prop}

/-! ## Places -/

/-- Every node of the draft has its number and its place, among the `children` of its parent or in a
list of its module, but for those that are `waiting` for it. -/
structure Seated (names : List String) (waiting : NodeId → Prop) (d : Draft) : Prop where
  modules : d.model.moduleNames = names
  numbered : ∀ x < d.model.size, (d.node x).id = x
  within : ∀ x, waiting x → x < d.model.size
  seat : ∀ x p, (d.node x).parent = some p → ¬ waiting x → x ∈ (d.node p).children
  hosted : ∀ p, ∀ c ∈ (d.node p).children, (d.node c).parent = some ((d.node p).host p)
  tops : ∀ x, x ∈ d.model.tops ↔
    x < d.model.size ∧ (d.node x).parent = none ∧ ¬ waiting x
  distinct : d.model.tops.Nodup

/-- Nodes are added, and no old node gets another `parent` or `kind`. -/
structure Stays (d d' : Draft) : Prop where
  size : d.model.size ≤ d'.model.size
  parent : ∀ x < d.model.size, (d'.node x).parent = (d.node x).parent
  kind : ∀ x < d.model.size, (d'.node x).kind = (d.node x).kind

/-- The node `p` lists its own children: it is its own `host`. -/
structure Hosts (d : Draft) (p : NodeId) : Prop where
  lt : p < d.model.size
  host : (d.node p).host p = p

theorem Stays.refl (d : Draft) : Stays d d := ⟨le_rfl, fun _ _ => rfl, fun _ _ => rfl⟩

theorem Stays.trans (h : Stays d d') (h' : Stays d' d'') : Stays d d'' :=
  ⟨le_trans h.size h'.size,
    fun x hx => (h'.parent x (lt_of_lt_of_le hx h.size)).trans (h.parent x hx),
    fun x hx => (h'.kind x (lt_of_lt_of_le hx h.size)).trans (h.kind x hx)⟩

theorem Stays.host (h : Stays d d') {p : NodeId} (hp : p < d.model.size) (id : NodeId) :
    (d'.node p).host id = (d.node p).host id := by
  unfold Node.host
  rw [h.parent p hp, h.kind p hp]

theorem Stays.hosts (h : Stays d d') {p : NodeId} (hp : d.Hosts p) : d'.Hosts p :=
  ⟨lt_of_lt_of_le hp.lt h.size, (h.host hp.lt p).trans hp.host⟩

theorem Seated.child_lt (h : d.Seated names waiting) {p c : NodeId}
    (hc : c ∈ (d.node p).children) : c < d.model.size :=
  lt_size_of_parent (h.hosted p c hc)

/-! ## Single steps -/

theorem stays_add (d : Draft) (n : Node) : Stays d (d.add n).1 := by
  refine ⟨?_, fun x hx => ?_, fun x hx => ?_⟩
  · rw [size_add]; exact Nat.le_succ _
  · rw [node_add_of_lt d n hx]
  · rw [node_add_of_lt d n hx]

/-- The node that `Draft.add` makes, without children, is `waiting` for its place. -/
theorem Seated.add (h : d.Seated names waiting) {n : Node} (hn : n.children = []) :
    (d.add n).1.Seated names fun x => waiting x ∨ x = d.model.size := by
  have hold : ∀ x, x < d.model.size → (d.add n).1.node x = d.node x := fun x hx =>
    node_add_of_lt d n hx
  have hsize := size_add d n
  have htops : (d.add n).1.model.tops = d.model.tops := rfl
  refine ⟨h.modules, fun x hx => ?_, fun x hx => ?_, fun x p hp hx => ?_, fun p c hc => ?_,
    fun x => ?_, h.distinct⟩
  · rw [node_add]
    split
    · rename_i hlast; exact hlast.symm
    · rename_i hlast
      rw [hsize] at hx
      exact h.numbered x (Nat.lt_of_le_of_ne (Nat.le_of_lt_succ hx) hlast)
  · rw [hsize]
    rcases hx with hx | rfl
    · exact Nat.lt_succ_of_lt (h.within x hx)
    · exact Nat.lt_succ_self _
  · have hlt : x < d.model.size := by
      have := lt_size_of_parent hp
      rw [hsize] at this
      exact Nat.lt_of_le_of_ne (Nat.le_of_lt_succ this) fun heq => hx (.inr heq)
    rw [hold x hlt] at hp
    have hmem := h.seat x p hp fun hw => hx (.inl hw)
    by_cases hps : p < d.model.size
    · rw [hold p hps]; exact hmem
    · have hblank : d.node p = Node.blank := node_of_size_le (Nat.le_of_not_lt hps)
      rw [hblank] at hmem
      cases hmem
  · by_cases hp : p = d.model.size
    · subst hp
      rw [node_add_self] at hc
      rw [show (d.completed n).children = [] from hn] at hc
      cases hc
    · have hnode : (d.add n).1.node p = d.node p := by rw [node_add, if_neg hp]
      rw [hnode] at hc ⊢
      rw [hold c (h.child_lt hc)]
      exact h.hosted p c hc
  · rw [htops, h.tops x, hsize]
    constructor
    · rintro ⟨hlt, hparent, hw⟩
      refine ⟨Nat.lt_succ_of_lt hlt, by rw [hold x hlt]; exact hparent, ?_⟩
      rintro (hx | rfl)
      · exact hw hx
      · exact Nat.lt_irrefl _ hlt
    · rintro ⟨hlt, hparent, hw⟩
      have hlt : x < d.model.size :=
        Nat.lt_of_le_of_ne (Nat.le_of_lt_succ hlt) fun heq => hw (.inr heq)
      rw [hold x hlt] at hparent
      exact ⟨hlt, hparent, fun hx => hw (.inl hx)⟩

theorem stays_update {id : NodeId} (hid : id < d.model.size) {f : Node → Node}
    (hparent : (f (d.node id)).parent = (d.node id).parent)
    (hkind : (f (d.node id)).kind = (d.node id).kind) : Stays d (d.update id f) := by
  refine ⟨(size_update d id f).ge, fun x _ => parent_update hid hparent x, fun x _ => ?_⟩
  rw [node_update d hid]
  split
  · rename_i hx; rw [hkind, hx]
  · rfl

/-- A node that keeps its number, `parent` and `kind` may list more `children`, each of which stands
below its `host`. -/
theorem Seated.update (h : d.Seated names waiting) {id : NodeId} (hid : id < d.model.size)
    {f : Node → Node} (hnumber : (f (d.node id)).id = (d.node id).id)
    (hparent : (f (d.node id)).parent = (d.node id).parent)
    (hkind : (f (d.node id)).kind = (d.node id).kind) (cs : List NodeId)
    (hchildren : (f (d.node id)).children = (d.node id).children ++ cs)
    (hcs : ∀ c ∈ cs, (d.node c).parent = some ((d.node id).host id)) :
    (d.update id f).Seated names waiting := by
  have hparents := parent_update (f := f) hid hparent
  have hstays := stays_update hid hparent hkind
  have hnode := node_update d hid f
  refine ⟨h.modules, fun x hx => ?_, fun x hx => ?_, fun x p hp hx => ?_, fun p c hc => ?_,
    fun x => ?_, h.distinct⟩
  · rw [size_update] at hx
    rw [hnode]
    split
    · rename_i hx'
      rw [hnumber, ← hx']
      exact h.numbered x hx
    · exact h.numbered x hx
  · rw [size_update]; exact h.within x hx
  · rw [hparents] at hp
    have hmem := h.seat x p hp hx
    rw [hnode]
    split
    · rename_i hpid
      rw [hchildren, ← hpid]
      exact List.mem_append_left _ hmem
    · exact hmem
  · rw [hparents]
    by_cases hp : p = id
    · subst hp
      rw [hstays.host hid]
      rw [hnode, if_pos rfl, hchildren] at hc
      rcases List.mem_append.1 hc with hc | hc
      · exact h.hosted p c hc
      · exact hcs c hc
    · rw [hnode, if_neg hp] at hc ⊢
      exact h.hosted p c hc
  · rw [size_update, hparents]
    exact h.tops x

/-- `appendChild` keeps a draft `Seated`; the child goes on to wait if it did. -/
theorem Seated.append (h : d.Seated names waiting) {p c : NodeId} (hp : p < d.model.size)
    (hc : (d.node c).parent = some ((d.node p).host p)) :
    (d.appendChild p c).Seated names waiting :=
  h.update hp (by rfl) (by rfl) (by rfl) [c] (by rfl) fun x hx => List.mem_singleton.1 hx ▸ hc

/-- A node that stands among the `children` of its `parent` need not be `waiting` any more. -/
theorem Seated.settle {c p : NodeId} (h : d.Seated names fun x => waiting x ∨ x = c)
    (hp : (d.node c).parent = some p) (hc : c ∈ (d.node p).children) :
    d.Seated names waiting := by
  refine ⟨h.modules, h.numbered, fun x hx => h.within x (.inl hx), fun x q hq hx => ?_, h.hosted,
    fun x => ?_, h.distinct⟩
  · by_cases hxc : x = c
    · subst hxc
      obtain rfl := Option.some.inj (hp.symm.trans hq)
      exact hc
    · exact h.seat x q hq fun hw => hw.elim hx hxc
  · rw [h.tops x]
    refine and_congr_right fun _ => and_congr_right fun hnone => not_congr ?_
    refine or_iff_left fun hxc => ?_
    rw [hxc, hp] at hnone
    cases hnone

/-- A node without `parent` gets its place by `updateModule`, when a list of its module takes it
in. -/
theorem Seated.list {c : NodeId} (h : d.Seated names fun x => waiting x ∨ x = c)
    (hnames : names.Nodup) {name : String} (hname : name ∈ names)
    (htop : (d.node c).parent = none) (hnew : ¬ waiting c) {f : Module → Module}
    (hf : ∀ m, (f m).name = m.name ∧ (f m).tops.Perm (c :: m.tops)) :
    (d.updateModule name f).Seated names waiting := by
  have hperm : (d.updateModule name f).model.tops.Perm (c :: d.model.tops) := by
    rw [← h.modules] at hnames hname
    have hinsert := flatMap_insert_perm Module.name Module.tops (fun m => (f m).tops)
      (fun m _ => (hf m).2) hnames hname
    refine List.Perm.trans (List.Perm.of_eq ?_) hinsert
    unfold DataModel.tops updateModule
    rw [List.flatMap_map]
    refine List.flatMap_congr fun m _ => ?_
    by_cases hm : m.name = name
    · rw [if_pos hm, if_pos (beq_iff_eq.2 hm)]
    · rw [if_neg hm, if_neg fun heq => hm (beq_iff_eq.1 heq)]
  have hmodules : (d.updateModule name f).model.moduleNames = d.model.moduleNames := by
    unfold moduleNames updateModule
    rw [List.map_map]
    refine List.map_congr_left fun m _ => ?_
    rw [Function.comp_apply]
    split
    · exact (hf m).1
    · rfl
  have hunlisted : c ∉ d.model.tops := fun hc => ((h.tops c).1 hc).2.2 (.inr rfl)
  refine ⟨hmodules.trans h.modules, h.numbered, fun x hx => h.within x (.inl hx),
    fun x p hp hx => ?_, h.hosted, fun x => ?_, hperm.nodup_iff.2 (List.nodup_cons.2 ⟨hunlisted, h.distinct⟩)⟩
  · refine h.seat x p hp fun hw => hw.elim hx fun hxc => ?_
    have hp : (d.node x).parent = some p := hp
    rw [hxc, htop] at hp
    cases hp
  · rw [hperm.mem_iff, List.mem_cons, h.tops x]
    constructor
    · rintro (rfl | ⟨hlt, hparent, hw⟩)
      · exact ⟨h.within x (.inr rfl), htop, hnew⟩
      · exact ⟨hlt, hparent, fun hx => hw (.inl hx)⟩
    · rintro ⟨hlt, hparent, hw⟩
      by_cases hxc : x = c
      · exact .inl hxc
      · exact .inr ⟨hlt, hparent, fun hx => hx.elim hw hxc⟩

/-! ## Several steps -/

/-- The draft `Stays`, and its new nodes get their places: it is `Seated` with the same nodes
`waiting` as before. -/
structure Seats (names : List String) (waiting : NodeId → Prop) (d d' : Draft) : Prop
    extends Stays d d' where
  seated : d'.Seated names waiting

/-- The draft `Stays`, and its new nodes get their places, all but the node `id`, which stands
`below` the given parent and waits. -/
structure SeatsBut (names : List String) (waiting : NodeId → Prop) (below : Option NodeId)
    (d d' : Draft) (id : NodeId) : Prop extends Stays d d' where
  new : d.model.size ≤ id
  lt : id < d'.model.size
  place : (d'.node id).parent = below
  seated : d'.Seated names fun x => waiting x ∨ x = id

theorem Seats.refl (h : d.Seated names waiting) : Seats names waiting d d := ⟨.refl d, h⟩

theorem Seats.trans (h : Seats names waiting d d') (h' : Seats names waiting d' d'') :
    Seats names waiting d d'' :=
  ⟨h.toStays.trans h'.toStays, h'.seated⟩

theorem seatsBut_add (h : d.Seated names waiting) {n : Node} (hn : n.children = []) :
    SeatsBut names waiting n.parent d (d.add n).1 d.model.size := by
  refine ⟨stays_add d n, le_rfl, ?_, ?_, h.add hn⟩
  · rw [size_add]; exact Nat.lt_succ_self _
  · rw [node_add_self]; rfl

theorem SeatsBut.trans {parent : Option NodeId} {id : NodeId}
    (h : SeatsBut names waiting parent d d' id)
    (h' : Seats names (fun x => waiting x ∨ x = id) d' d'') :
    SeatsBut names waiting parent d d'' id :=
  ⟨h.toStays.trans h'.toStays, h.new, lt_of_lt_of_le h.lt h'.size,
    (h'.parent id h.lt).trans h.place, h'.seated⟩

/-- `appendChild` gives the node of `SeatsBut` its place among the children of its parent. -/
theorem SeatsBut.append {p id : NodeId} (h : SeatsBut names waiting (some p) d d' id)
    (hp : d.Hosts p) : Seats names waiting d (d'.appendChild p id) := by
  have hp' := h.toStays.hosts hp
  have hstays : Stays d' (d'.appendChild p id) := stays_update hp'.lt rfl rfl
  refine ⟨h.toStays.trans hstays, ?_⟩
  have happend := h.seated.append (c := id) hp'.lt (by rw [hp'.host, h.place])
  refine happend.settle ((hstays.parent id h.lt).trans h.place) ?_
  rw [node_appendChild hp'.lt]
  simp

/-- `updateModule` gives the node of `SeatsBut` its place in a list of its module. -/
theorem SeatsBut.list {id : NodeId} (h : SeatsBut names waiting none d d' id)
    (hd : d.Seated names waiting) (hnames : names.Nodup) {name : String} (hname : name ∈ names)
    {f : Module → Module} (hf : ∀ m, (f m).name = m.name ∧ (f m).tops.Perm (id :: m.tops)) :
    Seats names waiting d (d'.updateModule name f) := by
  refine ⟨⟨h.size, h.parent, h.kind⟩, h.seated.list hnames hname h.place (fun hw => ?_) hf⟩
  exact absurd (hd.within id hw) (Nat.not_lt.2 h.new)

/-- `Draft.update` with a change that leaves the number, the place and the `children` of a node
alone `Seats` the draft. -/
theorem seats_update (h : d.Seated names waiting) {id : NodeId} (hid : id < d.model.size)
    {f : Node → Node} (hnumber : (f (d.node id)).id = (d.node id).id)
    (hparent : (f (d.node id)).parent = (d.node id).parent)
    (hkind : (f (d.node id)).kind = (d.node id).kind)
    (hchildren : (f (d.node id)).children = (d.node id).children) :
    Seats names waiting d (d.update id f) :=
  ⟨stays_update hid hparent hkind,
    h.update hid hnumber hparent hkind [] (by rw [hchildren, List.append_nil]) (by simp)⟩

/-- What every step of a `foldlM` seats, the whole fold seats. -/
theorem foldlM_seats {α : Type} {f : Draft → α → Except SchemaError Draft} {l : List α}
    (hf : ∀ a ∈ l, ∀ b b', Seats names waiting d b → f b a = .ok b' → Seats names waiting b b')
    (h : d.Seated names waiting) (hok : l.foldlM f d = .ok d') : Seats names waiting d d' :=
  foldlM_invariant (Seats names waiting d) l d d' (fun a ha b b' hb hstep =>
    hb.trans (hf a ha b b' hb hstep)) (.refl h) hok

/-! ## Copies -/

mutual

theorem copyTree_seats (moduleName : String) (parent : NodeId) (introducer : Option NodeId) :
    ∀ (t : Tree) (c : Copying) (waiting : NodeId → Prop), c.draft.Seated names waiting →
      SeatsBut names waiting (some parent) c.draft
        (copyTree moduleName parent introducer c t).1.draft
        (copyTree moduleName parent introducer c t).2
  | .node source children, c, waiting, h => by
    rw [copyTree]
    have hadd : SeatsBut names waiting (some parent) c.draft _ c.draft.model.size :=
      seatsBut_add (n := copiedNode moduleName parent introducer source (c.draft.node source)) h rfl
    exact hadd.trans (copyBelow_seats moduleName c.draft.model.size children
      { draft := _, copies := (source, c.draft.model.size) :: c.copies } _
      ⟨hadd.lt, Node.host_of_parent hadd.place _⟩ hadd.seated)

theorem copyBelow_seats (moduleName : String) (parent : NodeId) :
    ∀ (ts : List Tree) (c : Copying) (waiting : NodeId → Prop), c.draft.Hosts parent →
      c.draft.Seated names waiting →
      Seats names waiting c.draft (copyBelow moduleName parent c ts).draft
  | [], c, waiting, _, h => by
    rw [copyBelow]
    exact .refl h
  | t :: ts, c, waiting, hp, h => by
    rw [copyBelow]
    have htree := copyTree_seats moduleName parent
      ((c.draft.node t.id).introducedBy.bind fun i => c.copies.lookup i) t c waiting h
    generalize copyTree moduleName parent
      ((c.draft.node t.id).introducedBy.bind fun i => c.copies.lookup i) c t = r at htree
    obtain ⟨c₁, id⟩ := r
    have hfirst := htree.append hp
    exact hfirst.trans (copyBelow_seats moduleName parent ts
      { c₁ with draft := c₁.draft.appendChild parent id } waiting (hfirst.hosts hp) hfirst.seated)

end

theorem placeCopy_seats (moduleName : String) {target : NodeId} (introducer grouping : NodeId)
    {c : Copying} (t : Tree) (ht : c.draft.Hosts target) (h : c.draft.Seated names waiting) :
    Seats names waiting c.draft (placeCopy moduleName target introducer grouping c t).draft := by
  have htree := copyTree_seats moduleName target (some introducer) t c waiting h
  unfold placeCopy
  generalize copyTree moduleName target (some introducer) c t = r at htree
  exact (htree.trans (seats_update htree.seated htree.lt rfl rfl rfl rfl)).append ht

theorem copyGrouping_seats (moduleName : String) {target : NodeId} (introducer grouping : NodeId)
    (ht : d.Hosts target) (h : d.Seated names waiting) :
    Seats names waiting d (copyGrouping moduleName target introducer grouping d) := by
  suffices ∀ (ts : List Tree) (c : Copying), c.draft.Hosts target →
      c.draft.Seated names waiting → Seats names waiting c.draft
        (ts.foldl (placeCopy moduleName target introducer grouping) c).draft from
    this (d.model.tree grouping).children { draft := d } ht h
  intro ts
  induction ts with
  | nil => exact fun c _ h => .refl h
  | cons t ts ih =>
    intro c ht h
    have hfirst := placeCopy_seats moduleName introducer grouping t ht h
    exact hfirst.trans (ih _ (hfirst.hosts ht) hfirst.seated)

/-! ## Statements -/

/-- Providing a grouping `Seats` every new node. -/
def Places (names : List String) (provide : Provide) : Prop :=
  ∀ (name : GroupingName) (location : String) (d d' : Draft) (g : NodeId)
    (waiting : NodeId → Prop), d.Seated names waiting →
    provide name location d = .ok (d', g) → Seats names waiting d d'

section Provided

variable {provide : Provide} (hprovide : Places names provide) {moduleName : String}

include hprovide

theorem applyUse_seats {target introducer : NodeId} {name : String} (ht : d.Hosts target)
    (hi : introducer < d.model.size) (h : d.Seated names waiting)
    (hok : applyUse provide moduleName target introducer d name = .ok d') :
    Seats names waiting d d' := by
  unfold applyUse at hok
  obtain ⟨⟨groupingModule, groupingName⟩, -, hok⟩ := bind_eq_ok.1 hok
  obtain ⟨⟨d₁, g⟩, hp, hok⟩ := bind_eq_ok.1 hok
  cases hok
  have hprovided := hprovide _ _ d d₁ g waiting h hp
  have hrecord : Seats names waiting d₁ (d₁.recordUse introducer g) :=
    seats_update hprovided.seated (lt_of_lt_of_le hi hprovided.size) rfl rfl rfl rfl
  have hrecorded := hprovided.trans hrecord
  exact hrecorded.trans
    (copyGrouping_seats moduleName introducer g (hrecorded.hosts ht) hrecorded.seated)

theorem foldlM_applyUse_seats {t : NodeId} {uses : List String} (ht : d.Hosts t)
    (h : d.Seated names waiting) (hok : uses.foldlM (applyUse provide moduleName t t) d = .ok d') :
    Seats names waiting d d' :=
  foldlM_seats (fun _ _ _ _ hb hstep =>
    have hb' := hb.hosts ht
    applyUse_seats hprovide hb' hb'.lt hb.seated hstep) h hok

end Provided

mutual

theorem addStatement_seats {provide : Provide} (hprovide : Places names provide)
    {moduleName : String} {parent : Option NodeId} {id : NodeId} :
    ∀ (s : Source.Statement) (d d' : Draft) (waiting : NodeId → Prop), d.Seated names waiting →
      addStatement provide moduleName parent s d = .ok (d', id) →
      SeatsBut names waiting parent d d' id
  | ⟨kind, name, config, description, reference, children, uses⟩, d, d', waiting, h, hok => by
    rw [addStatement] at hok
    obtain ⟨d₁, h₁, hok⟩ := bind_eq_ok.1 hok
    obtain ⟨d₂, h₂, hok⟩ := bind_eq_ok.1 hok
    cases hok
    let n : Node := { kind := linkedKind kind, moduleName := moduleName, name := name,
                      parent := parent, configStatement := config, description := description,
                      reference := reference }
    have hadd : SeatsBut names waiting parent d (d.add n).1 d.model.size :=
      seatsBut_add (n := n) h rfl
    have hhosts : (d.add n).1.Hosts d.model.size :=
      ⟨hadd.lt, Node.host_of_kind (by rw [node_add_self]; exact Kind.linkedKind_isAugment kind) _⟩
    have hchildren := addChildren_seats hprovide children _ d₁ _ hhosts hadd.seated h₁
    exact hadd.trans (hchildren.trans
      (foldlM_applyUse_seats hprovide (hchildren.hosts hhosts) hchildren.seated h₂))

theorem addChildren_seats {provide : Provide} (hprovide : Places names provide)
    {moduleName : String} {t : NodeId} :
    ∀ (children : List Source.Statement) (d d' : Draft) (waiting : NodeId → Prop), d.Hosts t →
      d.Seated names waiting → addChildren provide moduleName t children d = .ok d' →
      Seats names waiting d d'
  | [], d, d', waiting, _, h, hok => by
    rw [addChildren] at hok
    cases hok
    exact .refl h
  | s :: rest, d, d', waiting, ht, h, hok => by
    rw [addChildren] at hok
    obtain ⟨⟨d₁, id⟩, h₁, hok⟩ := bind_eq_ok.1 hok
    have hfirst := (addStatement_seats hprovide s d d₁ waiting h h₁).append ht
    exact hfirst.trans
      (addChildren_seats hprovide rest _ d' waiting (hfirst.hosts ht) hfirst.seated hok)

end

theorem addBody_seats {provide : Provide} (hprovide : Places names provide) {moduleName : String}
    {t : NodeId} {body : Source.Body} (ht : d.Hosts t) (h : d.Seated names waiting)
    (hok : addBody provide moduleName t body d = .ok d') : Seats names waiting d d' := by
  unfold addBody at hok
  obtain ⟨d₁, h₁, hok⟩ := bind_eq_ok.1 hok
  have hchildren := addChildren_seats hprovide body.children d d₁ waiting ht h h₁
  exact hchildren.trans
    (foldlM_applyUse_seats hprovide (hchildren.hosts ht) hchildren.seated hok)

/-! ## Groupings and remote calls -/

theorem provideGrouping_places {sources : List Source.Module}
    (hnames : (sources.map (·.name)).Nodup) (underWay : List GroupingName) :
    Places (sources.map (·.name)) (provideGrouping sources underWay) := by
  intro name location d d' g waiting h hok
  rw [provideGrouping] at hok
  split at hok
  · cases hok
    exact .refl h
  · split at hok
    · cases hok
    · rename_i hnew
      split at hok
      · cases hok
      · rename_i decl hdecl
        obtain ⟨d₁, hbody, hok⟩ := bind_eq_ok.1 hok
        cases hok
        let n : Node := { kind := .grouping, moduleName := name.moduleName, name := name.name,
                          description := decl.description, reference := decl.reference }
        have hadd : SeatsBut (sources.map (·.name)) waiting none d (d.add n).1 d.model.size :=
          seatsBut_add (n := n) h rfl
        have hhosts : (d.add n).1.Hosts d.model.size :=
          ⟨hadd.lt, Node.host_of_kind (by rw [node_add_self]; rfl) _⟩
        have hfilled := hadd.trans (addBody_seats
          (provideGrouping_places hnames (underWay ++ [name])) hhosts hadd.seated hbody)
        -- counting the grouping as built changes no node
        have hbuilt : SeatsBut (sources.map (·.name)) waiting none d
            (d₁.finish name d.model.size) d.model.size :=
          ⟨⟨hfilled.size, hfilled.parent, hfilled.kind⟩, hfilled.new, hfilled.lt, hfilled.place,
            ⟨hfilled.seated.modules, hfilled.seated.numbered, hfilled.seated.within,
              hfilled.seated.seat, hfilled.seated.hosted, hfilled.seated.tops,
              hfilled.seated.distinct⟩⟩
        refine hbuilt.list h hnames (moduleName_of_declaration? hdecl) fun m => ⟨rfl, ?_⟩
        refine List.perm_iff_count.2 fun x => ?_
        simp only [Module.count_tops, List.count_append, List.count_cons, List.count_nil]
        omega
termination_by remaining sources underWay
decreasing_by exact remaining_append_lt (mem_declaredNames ‹_›) ‹_›

section Calls

variable {provide : Provide} (hprovide : Places names provide) {moduleName : String}

include hprovide

theorem addMessage_seats {rpc : NodeId} {kind : Kind} {body : Option Source.Body}
    (ht : d.Hosts rpc) (h : d.Seated names waiting)
    (hok : addMessage provide moduleName rpc kind body d = .ok d') : Seats names waiting d d' := by
  unfold addMessage at hok
  cases body with
  | none => cases hok; exact .refl h
  | some body =>
    obtain ⟨d₁, hbody, hok⟩ := bind_eq_ok.1 hok
    cases hok
    let n : Node := { kind := kind, moduleName := moduleName, name := kind.keyword,
                      parent := some rpc }
    have hadd : SeatsBut names waiting (some rpc) d (d.add n).1 d.model.size :=
      seatsBut_add (n := n) h rfl
    have hhosts : (d.add n).1.Hosts d.model.size := ⟨hadd.lt, Node.host_of_parent hadd.place _⟩
    exact (hadd.trans (addBody_seats hprovide hhosts hadd.seated hbody)).append ht

theorem addRpc_seats {rpc : Source.Rpc} {id : NodeId} (h : d.Seated names waiting)
    (hok : addRpc provide moduleName rpc d = .ok (d', id)) :
    SeatsBut names waiting none d d' id := by
  unfold addRpc at hok
  obtain ⟨d₁, hin, hok⟩ := bind_eq_ok.1 hok
  obtain ⟨d₂, hout, hok⟩ := bind_eq_ok.1 hok
  cases hok
  let n : Node := { kind := .rpc, moduleName := moduleName, name := rpc.name,
                    description := rpc.description, reference := rpc.reference }
  have hadd : SeatsBut names waiting none d (d.add n).1 d.model.size :=
      seatsBut_add (n := n) h rfl
  have hhosts : (d.add n).1.Hosts d.model.size :=
    ⟨hadd.lt, Node.host_of_kind (by rw [node_add_self]; rfl) _⟩
  have hinput := addMessage_seats hprovide hhosts hadd.seated hin
  exact hadd.trans (hinput.trans
    (addMessage_seats hprovide (hinput.hosts hhosts) hinput.seated hout))

end Calls

/-! ## Augments -/

/-- An augment `a` and the node `t` that it adds to, which `host`s what the augment brings in. -/
structure Extends (d : Draft) (t a : NodeId) : Prop where
  hosts : d.Hosts t
  lt : a < d.model.size
  host : (d.node a).host a = t

theorem Stays.extends {t a : NodeId} (h : Stays d d') (hx : d.Extends t a) : d'.Extends t a :=
  ⟨h.hosts hx.hosts, lt_of_lt_of_le hx.lt h.size, (h.host hx.lt a).trans hx.host⟩

theorem Seated.lt_of_leads (h : d.Seated names waiting) {r t : NodeId} {way : List String}
    (hleads : d.model.Leads r way t) (hr : r < d.model.size) : t < d.model.size := by
  induction hleads with
  | here => exact hr
  | down hchild _ ih => exact ih (h.child_lt (List.mem_of_find?_eq_some hchild))

/-- What `resolveTarget` finds lists its own children. -/
theorem Seated.hosts_target (h : d.Seated names waiting) {home target : String} {t : NodeId}
    (ht : resolveTarget d.model home target = .ok t) : d.Hosts t := by
  obtain ⟨_, _, _, m, r, -, hm, hr, hleads⟩ := resolveTarget_leads ht
  have hmem : r ∈ d.model.tops := by
    refine List.mem_flatMap.2 ⟨m, List.mem_of_find?_eq_some hm, ?_⟩
    have := List.mem_of_find?_eq_some hr
    unfold Module.tops
    simp only [List.mem_append] at this ⊢
    tauto
  exact ⟨h.lt_of_leads hleads ((h.tops r).1 hmem).1,
    Node.host_of_kind (isAugment_of_isAugmentable (foldlM_of_resolveTarget ht).2) t⟩

/-- Listing a node at an augment with `markAugmented` gives no node another place. -/
theorem markAugmented_seats (moduleName : String) {t a c : NodeId} (hx : d.Extends t a)
    (hc : (d.node c).parent = some t) (h : d.Seated names waiting) :
    Seats names waiting d (markAugmented moduleName a d c) := by
  have hmark : Seats names waiting d (d.markModule moduleName c) :=
    seats_update h (lt_size_of_parent hc) rfl rfl rfl rfl
  have hx' := hmark.extends hx
  refine ⟨hmark.toStays.trans (stays_update hx'.lt rfl rfl), hmark.seated.append hx'.lt ?_⟩
  rw [hx'.host, hmark.parent c (lt_size_of_parent hc), hc]

theorem foldl_markAugmented_seats (moduleName : String) {t a : NodeId} :
    ∀ (ids : List NodeId) (d : Draft), d.Extends t a → (∀ c ∈ ids, (d.node c).parent = some t) →
      d.Seated names waiting → Seats names waiting d (ids.foldl (markAugmented moduleName a) d)
  | [], d, _, _, h => .refl h
  | c :: ids, d, hx, hids, h => by
    have hfirst := markAugmented_seats moduleName hx (hids c List.mem_cons_self) h
    refine hfirst.trans (foldl_markAugmented_seats moduleName ids _ (hfirst.extends hx)
      (fun y hy => ?_) hfirst.seated)
    have hy := hids y (List.mem_cons_of_mem _ hy)
    exact (hfirst.parent y (lt_size_of_parent hy)).trans hy

section Augments

variable {provide : Provide} (hprovide : Places names provide) {moduleName : String}

include hprovide

theorem augmentChild_seats {t a : NodeId} {s : Source.Statement} (hx : d.Extends t a)
    (h : d.Seated names waiting) (hok : augmentChild provide moduleName t a d s = .ok d') :
    Seats names waiting d d' := by
  unfold augmentChild at hok
  obtain ⟨⟨d₁, id⟩, hadd, hok⟩ := bind_eq_ok.1 hok
  cases hok
  have hnew := addStatement_seats hprovide s d d₁ waiting h hadd
  have hplaced := hnew.append hx.hosts
  refine hplaced.trans (markAugmented_seats moduleName (hplaced.extends hx) ?_ hplaced.seated)
  have hstays : Stays d₁ (d₁.appendChild t id) :=
    stays_update (lt_of_lt_of_le hx.hosts.lt hnew.size) rfl rfl
  exact (hstays.parent id hnew.lt).trans hnew.place

theorem augmentUse_seats {t a : NodeId} {name : String} (hx : d.Extends t a)
    (h : d.Seated names waiting) (hok : augmentUse provide moduleName t a d name = .ok d') :
    Seats names waiting d d' := by
  unfold augmentUse at hok
  obtain ⟨d₁, huse, hok⟩ := bind_eq_ok.1 hok
  cases hok
  have hused := applyUse_seats hprovide hx.hosts hx.lt h huse
  have hx₁ := hused.extends hx
  refine hused.trans (foldl_markAugmented_seats moduleName _ _ hx₁ (fun c hc => ?_) hused.seated)
  rw [hused.seated.hosted t c (List.mem_of_mem_drop hc), hx₁.hosts.host]

end Augments

theorem diverge_seats (t : NodeId) (h : d.Seated names waiting) :
    Seats names waiting d (diverge d t) := by
  rw [diverge_eq]
  have hlt : ∀ x ∈ d.diverging t, x < d.model.size := fun x hx => by
    have hcopied : (d.node x).copiedFrom.isSome = true :=
      List.all_eq_true.1 List.all_takeWhile x hx
    obtain ⟨s, hs⟩ := Option.isSome_iff_exists.1 hcopied
    exact lt_size_of_copies hs
  generalize d.diverging t = ids at hlt
  induction ids generalizing d with
  | nil => exact .refl h
  | cons x ids ih =>
    have hfirst : Seats names waiting d
        (d.update x fun n => { n with copiedFrom := none }) :=
      seats_update h (hlt x List.mem_cons_self) rfl rfl rfl rfl
    exact hfirst.trans (ih hfirst.seated fun y hy =>
      lt_of_lt_of_le (hlt y (List.mem_cons_of_mem _ hy)) hfirst.size)

theorem addAugment_seats {provide : Provide} (hprovide : Places names provide)
    {moduleName : String} {augment : Source.Augment} {id : NodeId} (h : d.Seated names waiting)
    (hok : addAugment provide moduleName augment d = .ok (d', id)) :
    SeatsBut names waiting none d d' id := by
  unfold addAugment at hok
  obtain ⟨t, htarget, hok⟩ := bind_eq_ok.1 hok
  obtain ⟨d₁, hchildren, hok⟩ := bind_eq_ok.1 hok
  obtain ⟨d₂, huses, hok⟩ := bind_eq_ok.1 hok
  cases hok
  let n : Node := { kind := .augment t, moduleName := moduleName, name := augment.target,
                    description := augment.description }
  have hadd : SeatsBut names waiting none d (d.add n).1 d.model.size :=
    seatsBut_add (n := n) h rfl
  have hx : (d.add n).1.Extends t d.model.size :=
    ⟨hadd.hosts (h.hosts_target htarget), hadd.lt, by rw [node_add_self]; rfl⟩
  have h₁ := foldlM_seats (fun s _ b b' hb hstep =>
    augmentChild_seats hprovide (hb.extends hx) hb.seated hstep) hadd.seated hchildren
  have h₂ := foldlM_seats (fun u _ b b' hb hstep =>
    augmentUse_seats hprovide (hb.extends (h₁.extends hx)) hb.seated hstep) h₁.seated huses
  have h₃ : Seats names _ d₂ (d₂.update t fun n =>
      { n with augmentations := n.augmentations ++ [d.model.size] }) :=
    seats_update h₂.seated ((h₁.trans h₂).extends hx).hosts.lt rfl rfl rfl rfl
  exact hadd.trans (((h₁.trans h₂).trans h₃).trans (diverge_seats t h₃.seated))

/-! ## Modules -/

section Modules

variable {sources : List Source.Module} (hnames : (sources.map (·.name)).Nodup)
  {m : Source.Module} (hm : m ∈ sources)

include hnames hm

theorem addModule_seats (h : d.Seated (sources.map (·.name)) waiting)
    (hok : addModule sources d m = .ok d') : Seats (sources.map (·.name)) waiting d d' := by
  have hname : m.name ∈ sources.map (·.name) := List.mem_map.2 ⟨m, hm, rfl⟩
  have hprovide := provideGrouping_places hnames []
  unfold addModule at hok
  obtain ⟨d₁, hgroupings, hok⟩ := bind_eq_ok.1 hok
  obtain ⟨d₂, hdata, hrpcs⟩ := bind_eq_ok.1 hok
  have h₁ := foldlM_seats (fun g _ b b' hb hstep => by
    obtain ⟨⟨b₁, id⟩, hadd, hret⟩ := bind_eq_ok.1 hstep
    cases hret
    exact hprovide _ _ b b' id waiting hb.seated hadd) h hgroupings
  have h₂ := foldlM_seats (fun s _ b b' hb hstep => by
    obtain ⟨⟨b₁, id⟩, hadd, hret⟩ := bind_eq_ok.1 hstep
    cases hret
    refine (addStatement_seats hprovide s b b₁ waiting hb.seated hadd).list hb.seated hnames hname
      fun x => ⟨rfl, ?_⟩
    refine List.perm_iff_count.2 fun y => ?_
    simp only [Module.count_tops, List.count_append, List.count_cons, List.count_nil]
    omega) h₁.seated hdata
  have h₃ := foldlM_seats (fun r _ b b' hb hstep => by
    obtain ⟨⟨b₁, id⟩, hadd, hret⟩ := bind_eq_ok.1 hstep
    cases hret
    refine (addRpc_seats hprovide hb.seated hadd).list hb.seated hnames hname fun x => ⟨rfl, ?_⟩
    refine List.perm_iff_count.2 fun y => ?_
    simp only [Module.count_tops, List.count_append, List.count_cons, List.count_nil]
    omega) h₂.seated hrpcs
  exact (h₁.trans h₂).trans h₃

theorem addAugments_seats (h : d.Seated (sources.map (·.name)) waiting)
    (hok : addAugments sources d m = .ok d') : Seats (sources.map (·.name)) waiting d d' := by
  have hname : m.name ∈ sources.map (·.name) := List.mem_map.2 ⟨m, hm, rfl⟩
  refine foldlM_seats (fun a _ b b' hb hstep => ?_) h hok
  obtain ⟨⟨b₁, id⟩, hadd, hret⟩ := bind_eq_ok.1 hstep
  cases hret
  refine (addAugment_seats (provideGrouping_places hnames []) hb.seated hadd).list hb.seated hnames
    hname fun x => ⟨rfl, ?_⟩
  refine List.perm_iff_count.2 fun y => ?_
  simp only [Module.count_tops, List.count_append, List.count_cons, List.count_nil]
  omega

end Modules

theorem seated_start (sources : List Source.Module) :
    Seated (sources.map (·.name)) (fun _ => False)
      { model := { modules := sources.map emptyModule } } := by
  have hblank : ∀ x, Draft.node { model := { modules := sources.map emptyModule } } x = Node.blank :=
    fun x => node_of_size_le (Nat.zero_le x)
  have htops : DataModel.tops { modules := sources.map emptyModule } = [] := by
    refine List.eq_nil_iff_forall_not_mem.2 fun x hx => ?_
    obtain ⟨m', hm', hx⟩ := List.mem_flatMap.1 hx
    obtain ⟨m, -, rfl⟩ := List.mem_map.1 hm'
    cases hx
  refine ⟨?_, fun x hx => absurd hx (Nat.not_lt_zero x), fun _ hx => hx.elim, fun x p hp _ => ?_, fun p c hc => ?_, fun x => ?_, ?_⟩
  · unfold moduleNames
    rw [List.map_map]
    rfl
  · rw [hblank] at hp
    cases hp
  · rw [hblank] at hc
    cases hc
  · rw [htops]
    exact ⟨fun hx => (nomatch hx), fun hx => absurd hx.1 (Nat.not_lt_zero x)⟩
  · rw [htops]
    exact List.nodup_nil

end Draft

variable {sources : List Source.Module} {model : DataModel}

/-- After linking, the draft is `Seated` and no node waits for its place. -/
theorem seated_of_link (h : link sources = .ok model) :
    ∃ d : Draft, d.model = model ∧ d.Seated (sources.map (·.name)) fun _ => False := by
  unfold link at h
  split at h
  · cases h
  · rename_i hrepeated
    obtain ⟨hnames, -⟩ := Draft.nodup_of_firstRepeated _ [] hrepeated
    obtain ⟨d₁, hmodules, h⟩ := bind_eq_ok.1 h
    obtain ⟨d₂, haugments, h⟩ := bind_eq_ok.1 h
    cases h
    have h₁ := Draft.foldlM_seats (fun m hm b b' hb hstep =>
      Draft.addModule_seats hnames hm hb.seated hstep) (Draft.seated_start sources) hmodules
    have h₂ := Draft.foldlM_seats (fun m hm b b' hb hstep =>
      Draft.addAugments_seats hnames hm hb.seated hstep) h₁.seated haugments
    exact ⟨d₂, rfl, h₂.seated⟩

/-- A node is among the children of its parent. -/
theorem mem_children_of_parent (h : link sources = .ok model) {id p : NodeId}
    (hp : (model.node id).parent = some p) : id ∈ (model.node p).children := by
  obtain ⟨d, rfl, hseated⟩ := seated_of_link h
  exact hseated.seat id p hp not_false

/-! ## Forests -/

/-- Nodes that make up trees: each has the number it stands at, and either at the top of one module or
below one node that comes before it. -/
structure IsForest (model : DataModel) : Prop where
  numbered : ∀ id < model.size, (model.node id).id = id
  top : ∀ id, model.tops.count id =
    if id < model.size ∧ (model.node id).parent = none then 1 else 0
  seat : ∀ id p, (model.node id).parent = some p →
    p < id ∧ (model.node p).children.count id = 1
  below : ∀ id, (model.node id).kind.isAugment = false →
    ∀ c ∈ (model.node id).children, (model.node c).parent = some id
  added : ∀ a t, (model.node a).kind = .augment t →
    ∀ c ∈ (model.node a).children, (model.node c).parent = some t
  copied : ∀ id s, (model.node id).copiedFrom = some s → s < id
  climbs : ∀ id, (model.node (chase (fun a => (model.node a).parent) model.size id)).parent = none
  goesBack : ∀ id,
    (model.node (chase (fun a => (model.node a).copiedFrom) model.size id)).copiedFrom = none

/-- What `link` makes `IsForest`: every number is the node's own, and every node has its one
place. -/
theorem link_isForest (h : link sources = .ok model) : model.IsForest := by
  have hm := (linked_of_link h).1
  obtain ⟨d, rfl, hseated⟩ := seated_of_link h
  obtain ⟨_, d', _, hpasses, hd', -, -⟩ := Draft.passes_of_link h
  have hdistinct : ∀ id, (d.model.node id).children.Nodup :=
    hd' ▸ hpasses.linked.faithful.distinct
  have hregular : ∀ id < d'.model.size, d'.Regular id := hpasses.linked.sound.coherent.regular
  have hbelow : ∀ id p, (d.model.node id).parent = some p →
      (d.model.node id).kind.isAugment = false := by
    rw [← hd']
    exact fun id p hp => (hregular id (lt_size_of_parent hp)).parent p hp
  refine ⟨hseated.numbered, fun id => ?_, fun id p hp => ⟨hm.up id p hp, ?_⟩,
    fun id hk c hc => (hm.below id hk c hc).1, fun a t ha c hc => ?_,
    fun id s hs => (hm.copied id s hs).1, fun id => ?_, fun id => ?_⟩
  · rw [List.Nodup.count hseated.distinct]
    refine if_congr ((hseated.tops id).trans ?_) rfl rfl
    exact and_congr_right fun _ => and_iff_left not_false
  · exact List.count_eq_one_of_mem (hdistinct p) (hseated.seat id p hp not_false)
  · have htop : (d.model.node a).parent = none := by
      by_contra hne
      obtain ⟨p, hp⟩ := Option.ne_none_iff_exists'.1 hne
      have hk := hbelow a p hp
      rw [ha] at hk
      cases hk
    refine (hseated.hosted a c hc).trans (congrArg some ?_)
    show (d.model.node a).host a = t
    unfold Node.host
    rw [ha, htop]
  · exact chase_ends (fun a => (d.model.node a).parent)
      (fun a b h => ⟨hm.up a b h, lt_size_of_parent h⟩) id
  · exact chase_ends (fun a => (d.model.node a).copiedFrom)
      (fun a b h => ⟨(hm.copied a b h).1, lt_size_of_copies h⟩) id

/-- The augment of `sharing` stands at the top and lists a child of the limits that it adds to. -/
theorem link_isForest_sharing : ∃ model, link sharing = .ok model ∧ model.IsForest ∧
    model.tops = [0, 4, 8, 13, 17] ∧ (model.node 17).children = [18] ∧
    (model.node 18).parent = some 15 := by
  obtain ⟨model, h⟩ := link_sharing
  have hplaces := map_of_ok h (f := fun model =>
      (model.tops, (model.node 17).children, (model.node 18).parent))
    (b := ([0, 4, 8, 13, 17], [18], some 15)) (by decide +kernel)
  simp only [Prod.mk.injEq] at hplaces
  exact ⟨model, h, link_isForest h, hplaces⟩

end RestSpec.DataModel
