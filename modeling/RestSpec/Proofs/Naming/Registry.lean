/-
Definition names are names of canonical nodes, and of one each. Whatever has been resolved before,
what the registry remembers of a node agrees with the model; a name that is made up is none that
has an owner already; and a name that has an owner keeps it.
-/
import RestSpec.Naming.Registry
import RestSpec.Proofs.Except
import RestSpec.Proofs.Naming.Canonical
import RestSpec.Proofs.Naming.Unique

namespace RestSpec.Naming

open DataModel
open Relation (ReflTransGen)

/-! ## Fresh names -/

/-- A name that is not taken, found on the way from the shortest of the names up to `last` to the
longest, and beyond it by number. -/
inductive Fresh (taken : List String) (name : Nat → String) (last : Nat) : String → Prop
  | extended {k : Nat} : k ≤ last → name k ∉ taken → (∀ j < k, name j ∈ taken) →
      Fresh taken name last (name k)
  | numbered {k : Nat} : (∀ j ≤ last, name j ∈ taken) →
      FirstFree taken (Naming.numbered (name last) "_") k →
      Fresh taken name last (Naming.numbered (name last) "_" k)

theorem Fresh.not_mem {taken : List String} {name : Nat → String} {last : Nat} {n : String}
    (h : Fresh taken name last n) : n ∉ taken := by
  cases h with
  | extended _ hfree _ => exact hfree
  | numbered _ hfree => exact hfree.free

/-- The name of a node with the classes of its `k` nearest ancestors in front, by `extendedName`. -/
def nameAmong (model : DataModel) (id : NodeId) (k : Nat) : String :=
  extendedName model id ((model.ancestors id).take k)

namespace Registry

variable {r r' r'' : Registry} {model : DataModel}

theorem freshName_fresh (r : Registry) (model : DataModel) (id : NodeId) :
    Fresh r.taken (nameAmong model id) (model.ancestors id).length (r.freshName model id) := by
  have hcandidates : candidates model id =
      (List.range ((model.ancestors id).length + 1)).map (nameAmong model id) := rfl
  unfold freshName
  rw [hcandidates]
  dsimp only
  rw [List.find?_map]
  cases hfind : (List.range ((model.ancestors id).length + 1)).find?
      ((fun n => !r.taken.contains n) ∘ nameAmong model id) with
  | some k =>
    obtain ⟨hk, hlt, hbefore⟩ := List.find?_range_eq_some.1 hfind
    refine .extended (Nat.le_of_lt_succ (List.mem_range.1 hlt)) (by simpa using hk) fun j hj => ?_
    simpa using hbefore j hj
  | none =>
    -- every name up to the longest is taken, so the longest gets a number
    have htaken : ∀ j ≤ (model.ancestors id).length, nameAmong model id j ∈ r.taken := by
      intro j hj
      simpa using List.find?_eq_none.1 hfind j (List.mem_range.2 (Nat.lt_succ_of_le hj))
    have hlast : ((List.range ((model.ancestors id).length + 1)).map
        (nameAmong model id)).getLast?.getD "" = nameAmong model id (model.ancestors id).length := by
      rw [List.range_succ, List.map_append]
      simp
    dsimp only [Option.map_none]
    rw [hlast]
    rcases unique_spec r.taken (nameAmong model id (model.ancestors id).length) with
      ⟨hfree, -⟩ | ⟨-, k, hname, hfirst⟩
    · exact absurd (htaken _ le_rfl) hfree
    · rw [hname]
      exact .numbered htaken hfirst

/-! ## What a registry remembers -/

/-- An owner is a canonical node that is known by name, and has its name from `freshName`. -/
structure Owns (model : DataModel) (r : Registry) (n : String) (owner : NodeId) : Prop where
  canonical : model.canonical owner = owner
  known : ∃ n', (owner, n') ∈ r.names
  made : ∃ taken, Fresh taken (nameAmong model owner) (model.ancestors owner).length n

/-- What the registry remembers agrees with the model, by `canonical`, and no two names or owners
are the same. -/
structure Valid (model : DataModel) (r : Registry) : Prop where
  canonicals : ∀ id owner, (id, owner) ∈ r.canonicals → model.canonical id = owner
  names : ∀ id n, (id, n) ∈ r.names → (n, model.canonical id) ∈ r.owners
  owners : ∀ n owner, (n, owner) ∈ r.owners → Owns model r n owner
  distinctNames : (r.owners.map (·.1)).Nodup
  distinctOwners : (r.owners.map (·.2)).Nodup

theorem Owns.mono {n : String} {owner : NodeId} (h : Owns model r n owner)
    (hnames : ∀ e ∈ r.names, e ∈ r'.names) : Owns model r' n owner :=
  ⟨h.canonical, h.known.imp fun n' hn' => hnames (owner, n') hn', h.made⟩

theorem valid_empty (model : DataModel) : Valid model {} :=
  ⟨by simp, by simp, by simp, by simp, by simp⟩

theorem Valid.name_unique (h : r.Valid model) {n n' : String} {owner : NodeId}
    (hn : (n, owner) ∈ r.owners) (hn' : (n', owner) ∈ r.owners) : n = n' :=
  congrArg Prod.fst (List.inj_on_of_nodup_map h.distinctOwners hn hn' rfl)

theorem Valid.owner_unique (h : r.Valid model) {n : String} {owner owner' : NodeId}
    (ho : (n, owner) ∈ r.owners) (ho' : (n, owner') ∈ r.owners) : owner = owner' :=
  congrArg Prod.snd (List.inj_on_of_nodup_map h.distinctNames ho ho' rfl)

theorem mem_of_lookup {α : Type} {entries : List (NodeId × α)} {id : NodeId} {a : α}
    (h : entries.lookup id = some a) : (id, a) ∈ entries := by
  obtain ⟨l₁, l₂, rfl, -⟩ := List.lookup_eq_some_iff.1 h
  exact List.mem_append_right _ List.mem_cons_self

/-! ## Canonical nodes -/

/-- The `canonical` node has been found, and no name has got another owner. -/
structure FindsCanonical (model : DataModel) (r : Registry) (id : NodeId) (f : Registry × NodeId) :
    Prop where
  found : f.2 = model.canonical id
  valid : f.1.Valid model
  owners : f.1.owners = r.owners
  names : f.1.names = r.names

theorem canonicalWithin_finds (hm : model.Linked) : ∀ (steps : Nat) (r : Registry) (id : NodeId)
    (passed : List NodeId), r.Valid model →
    Passed (fun a b => model.standsFor? a = some b) model.size passed id →
    model.size < passed.length + steps →
    FindsCanonical model r id (canonicalWithin model steps r id)
  | 0, _, _, _, _, hp, hlt => absurd hp.length_le (Nat.not_le.2 hlt)
  | steps + 1, r, id, passed, hr, hp, hlt => by
    unfold canonicalWithin
    cases hl : r.canonicals.lookup id with
    | some owner => exact ⟨(hr.canonicals id owner (mem_of_lookup hl)).symm, hr, rfl, rfl⟩
    | none =>
      dsimp only
      cases hs : model.standsFor? id with
      | none =>
        have hend := hm.canonical_of_end hs
        refine ⟨hend.symm, ⟨fun x owner hx => ?_, hr.names,
          fun n o hn => (hr.owners n o hn).mono fun _ he => he, hr.distinctNames,
          hr.distinctOwners⟩, rfl, rfl⟩
        rcases List.mem_cons.1 hx with hx | hx
        · cases hx; exact hend
        · exact hr.canonicals x owner hx
      | some next =>
        -- one step on is the same canonical node, and one node more has been passed
        have hnext := hm.canonical_of_standsFor hs
        have hrest := canonicalWithin_finds hm steps r next (id :: passed) hr
          (hp.cons hm.standsFor_founded (lt_size_of_edge (edge_of_standsFor? hs)) (.single hs))
          (by simp only [List.length_cons]; omega)
        dsimp only
        refine ⟨hrest.found.trans hnext.symm, ⟨fun x owner hx => ?_, hrest.valid.names,
          fun n o hn => (hrest.valid.owners n o hn).mono fun _ he => he,
          hrest.valid.distinctNames, hrest.valid.distinctOwners⟩, hrest.owners, hrest.names⟩
        rcases List.mem_cons.1 hx with hx | hx
        · cases hx; exact hnext.trans hrest.found.symm
        · exact hrest.valid.canonicals x owner hx

theorem canonical_finds (hm : model.Linked) (hr : r.Valid model) (id : NodeId) :
    FindsCanonical model r id (r.canonical model id) :=
  canonicalWithin_finds hm _ r id [] hr .nil (by simp)

/-! ## Names -/

/-- Names keep their `owners`, and what is remembered stays `Valid`. -/
structure Extends (model : DataModel) (r r' : Registry) : Prop where
  valid : r'.Valid model
  kept : ∀ e ∈ r.owners, e ∈ r'.owners

theorem Extends.trans (h : Extends model r r') (h' : Extends model r' r'') :
    Extends model r r'' :=
  ⟨h'.valid, fun e he => h'.kept e (h.kept e he)⟩

/-- The name of an owner has been found, or made up by `nameAmong` if it had none. -/
structure Names (model : DataModel) (r : Registry) (owner : NodeId) (f : Registry × String) :
    Prop where
  grows : Extends model r f.1
  owned : (f.2, owner) ∈ f.1.owners
  fresh : (f.2, owner) ∈ r.owners ∨ (∀ n, (n, owner) ∉ r.owners) ∧
    Fresh r.taken (nameAmong model owner) (model.ancestors owner).length f.2

theorem resolveOwner_names (hr : r.Valid model) {owner : NodeId}
    (ho : model.canonical owner = owner) : Names model r owner (r.resolveOwner model owner) := by
  unfold resolveOwner
  cases hl : r.names.lookup owner with
  | some n =>
    have hn := hr.names owner n (mem_of_lookup hl)
    rw [ho] at hn
    exact ⟨⟨hr, fun _ he => he⟩, hn, .inl hn⟩
  | none =>
    have hfresh := freshName_fresh r model owner
    -- an owner with a name would be known by it
    have hnone : ∀ n, (n, owner) ∉ r.owners := by
      intro n hn
      obtain ⟨n', hn'⟩ := (hr.owners n owner hn).known
      simpa using List.lookup_eq_none_iff.1 hl (owner, n') hn'
    refine ⟨⟨⟨hr.canonicals, fun id n hn => ?_, fun n o hn => ?_, ?_, ?_⟩, fun e he => ?_⟩,
      List.mem_cons_self, .inr ⟨hnone, hfresh⟩⟩
    · rcases List.mem_cons.1 hn with hn | hn
      · cases hn
        rw [ho]
        exact List.mem_cons_self
      · exact List.mem_cons_of_mem _ (hr.names id n hn)
    · rcases List.mem_cons.1 hn with hn | hn
      · cases hn
        exact ⟨ho, ⟨_, List.mem_cons_self⟩, r.taken, hfresh⟩
      · exact (hr.owners n o hn).mono fun _ he => List.mem_cons_of_mem _ he
    · exact List.nodup_cons.2 ⟨hfresh.not_mem, hr.distinctNames⟩
    · refine List.nodup_cons.2 ⟨fun hmem => ?_, hr.distinctOwners⟩
      obtain ⟨⟨n, o⟩, hn, rfl⟩ := List.mem_map.1 hmem
      exact hnone n hn
    · exact List.mem_cons_of_mem _ he

/-- `resolve` gives a node the name of its `canonical` node. -/
theorem resolve_names (hm : model.Linked) (hr : r.Valid model) (id : NodeId) :
    Names model r (model.canonical id) (r.resolve model id) := by
  unfold resolve
  cases hl : r.names.lookup id with
  | some n =>
    have hn := hr.names id n (mem_of_lookup hl)
    exact ⟨⟨hr, fun _ he => he⟩, hn, .inl hn⟩
  | none =>
    have hfound := canonical_finds hm hr id
    dsimp only
    rw [hfound.found]
    have hnamed := resolveOwner_names hfound.valid (hm.canonical_canonical id)
    generalize (r.canonical model id).1.resolveOwner model (model.canonical id) = f at hnamed
    have hv := hnamed.grows.valid
    have htaken : (r.canonical model id).1.taken = r.taken := by
      unfold taken
      rw [hfound.owners]
    refine ⟨⟨⟨hv.canonicals, fun x n hn => ?_, fun n o hn => ?_, hv.distinctNames,
      hv.distinctOwners⟩, fun e he => ?_⟩, hnamed.owned, ?_⟩
    · rcases List.mem_cons.1 hn with hn | hn
      · cases hn; exact hnamed.owned
      · exact hv.names x n hn
    · exact (hv.owners n o hn).mono fun _ he => List.mem_cons_of_mem _ he
    · exact hnamed.grows.kept e (hfound.owners ▸ he)
    · rw [← hfound.owners, ← htaken]
      exact hnamed.fresh

/-! ## Runs -/

/-- Calls `resolve` for nodes one after the other, and lists their names in the same order. -/
def resolveAll (model : DataModel) : List NodeId → Registry → Registry × List String
  | [], r => (r, [])
  | id :: ids, r =>
    let (r, n) := r.resolve model id
    let (r, ns) := resolveAll model ids r
    (r, n :: ns)

theorem resolveAll_extends (hm : model.Linked) : ∀ (ids : List NodeId) (r : Registry),
    r.Valid model → Extends model r (resolveAll model ids r).1 ∧
      List.Forall₂ (fun n id => (n, model.canonical id) ∈ (resolveAll model ids r).1.owners)
        (resolveAll model ids r).2 ids
  | [], _, hr => ⟨⟨hr, fun _ he => he⟩, .nil⟩
  | id :: ids, r, hr => by
    have hstep := resolve_names hm hr id
    obtain ⟨hrest, hnames⟩ := resolveAll_extends hm ids (r.resolve model id).1 hstep.grows.valid
    exact ⟨hstep.grows.trans hrest, .cons (hrest.kept _ hstep.owned) hnames⟩

/-- `resolveAll` gives nodes the same name just if they have the same `canonical` node; a name that
has been given is given again; and a node whose canonical node has no name yet gets one that is
free. -/
theorem resolveAll_unique {sources : List Source.Module} {model : DataModel}
    (h : link sources = .ok model) (ids : List NodeId) :
    (resolveAll model ids {}).2.length = ids.length ∧
    (∀ (i j : Nat) (hi : i < ids.length) (hj : j < ids.length),
      (resolveAll model ids {}).2[i]? = (resolveAll model ids {}).2[j]? ↔
        model.canonical ids[i] = model.canonical ids[j]) ∧
    (∀ (i : Nat) (hi : i < ids.length), (resolveAll model ids {}).2[i]? =
      some ((resolveAll model ids {}).1.resolve model ids[i]).2) ∧
    ∀ id, Names model (resolveAll model ids {}).1 (model.canonical id)
      ((resolveAll model ids {}).1.resolve model id) := by
  obtain ⟨hm, -⟩ := linked_of_link h
  obtain ⟨hgrows, hnames⟩ := resolveAll_extends hm ids {} (valid_empty model)
  generalize resolveAll model ids {} = run at hgrows hnames
  have hv := hgrows.valid
  have howned : ∀ (i : Nat) (hi : i < ids.length), ∃ n, run.2[i]? = some n ∧
      (n, model.canonical ids[i]) ∈ run.1.owners := by
    intro i hi
    have hlt : i < run.2.length := hnames.length_eq ▸ hi
    exact ⟨run.2[i], List.getElem?_eq_getElem hlt, hnames.get hlt hi⟩
  refine ⟨hnames.length_eq, fun i j hi hj => ?_, fun i hi => ?_, fun id => resolve_names hm hv id⟩
  · obtain ⟨n, hn, ho⟩ := howned i hi
    obtain ⟨n', hn', ho'⟩ := howned j hj
    rw [hn, hn', Option.some_inj]
    constructor
    · rintro rfl
      exact hv.owner_unique ho ho'
    · intro heq
      rw [heq] at ho
      exact hv.name_unique ho ho'
  · obtain ⟨n, hn, ho⟩ := howned i hi
    have hagain := resolve_names hm hv ids[i]
    rw [hn, hagain.grows.valid.name_unique (hagain.grows.kept _ ho) hagain.owned]

theorem resolveAll_unique_sharing : ∃ model, link sharing = .ok model ∧
    ∀ i j (hi : i < [4, 0, 8, 4].length) (hj : j < [4, 0, 8, 4].length),
      (resolveAll model [4, 0, 8, 4] {}).2[i]? = (resolveAll model [4, 0, 8, 4] {}).2[j]? ↔
        model.canonical [4, 0, 8, 4][i] = model.canonical [4, 0, 8, 4][j] := by
  obtain ⟨model, h⟩ := link_sharing
  exact ⟨model, h, (resolveAll_unique h [4, 0, 8, 4]).2.1⟩

end Registry

end RestSpec.Naming
