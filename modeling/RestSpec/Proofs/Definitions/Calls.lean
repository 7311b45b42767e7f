/-
Sequences of calls. Whatever has been called before, a call succeeds and answers with the name of a
definition that is there; it adds definitions behind those that there are, and leaves these as they
are. Another call for the same node, or for one with the same canonical node, gives the same name
again and adds nothing.
-/
import RestSpec.Proofs.Definitions.Order

namespace RestSpec.Definitions

open Document DataModel
open Relation (TransGen)

/-! ## Calls -/

/-- A call to `build` the definition of a node, or to ask by `schemaFor` for the schema that refers
to it. -/
inductive Call where
  | build (id : NodeId)
  | schemaFor (id : NodeId)

/-- What a `Call` gives back: a name, or a schema. -/
inductive Answer where
  | name (n : String)
  | schema (s : Schema)

/-- The node that a `Call` is about. -/
def Call.node : Call → NodeId
  | build id => id
  | schemaFor id => id

/-- The answer to a `Call` that gives the name `n` away. -/
def Call.answer : Call → String → Answer
  | build _, n => .name n
  | schemaFor _, n => .schema (Schema.referenceTo n)

/-- Carries out a call: `build` answers with a name, `schemaFor` with a schema. -/
def call (strategy : Strategy) (model : DataModel) (defs : Definitions) :
    Call → Except CompileError (Definitions × Answer)
  | .build id => do
    let (defs, n) ← defs.build strategy model id
    return (defs, .name n)
  | .schemaFor id => do
    let (defs, s) ← defs.schemaFor strategy model id
    return (defs, .schema s)

/-- Makes the calls one after the other with `call`, and returns the definitions that they leave. -/
def callAll (strategy : Strategy) (model : DataModel) :
    List Call → Definitions → Except CompileError Definitions
  | [], defs => .ok defs
  | c :: cs, defs => do
    let (defs, _) ← call strategy model defs c
    callAll strategy model cs defs

variable {strategy : Strategy} {model : DataModel} {defs defs' : Definitions}

theorem call_of_build {c : Call} {n : String}
    (h : defs.build strategy model c.node = .ok (defs', n)) :
    call strategy model defs c = .ok (defs', c.answer n) := by
  cases c with
  | build id =>
    have h : defs.build strategy model id = .ok (defs', n) := h
    simp only [call, h]
    rfl
  | schemaFor id =>
    have h : defs.build strategy model id = .ok (defs', n) := h
    simp only [call, schemaFor, h]
    rfl

/-! ## What a call does -/

theorem find?_buildFlat (hm : model.Linked) (h : Sound .unpacking model defs) {id : NodeId}
    {n : String} (hbuild : defs.build .unpacking model id = .ok (defs', n)) {k : String}
    (hk : k ≠ n) : defs'.table.find? k = defs.table.find? k := by
  obtain ⟨defs₁, n₁, hbuild₁, hb⟩ := buildFlat_ok hm h id
  cases (hbuild₁ : defs.build .unpacking model id = .ok (defs₁, n₁)).symm.trans hbuild
  exact hb.others k hk

theorem Sound.isComposed (h : Sound .unpacking model defs) {n : String} {d : Definition}
    (hd : defs.table.find? n = some d) : d.isComposed = false := by
  obtain ⟨owner, -, id, a, -, -, rfl⟩ := h.entries n d hd
  rfl

/-- `build` gives a name that has a definition again for every node with the same `canonical` node,
and changes nothing. -/
theorem build_again (hm : model.Linked) (h : Sound strategy model defs) {id id' : NodeId}
    {n : String} (hn : Named model defs id n) (hsame : model.canonical id' = model.canonical id) :
    ∃ defs', defs.build strategy model id' = .ok (defs', n) ∧ defs'.table = defs.table := by
  have hr : Ready strategy model [] [] defs := ⟨h, by simp⟩
  have hn : Named model defs id' n := ⟨hsame ▸ hn.owned, hn.there⟩
  cases strategy with
  | optimizing =>
    obtain ⟨defs₁, hcanonical, hr₁, hg₁⟩ := canonical_ready hm hr id'
    obtain ⟨defs₂, n₂, hresolve, hr₂, hg₂, howned⟩ := resolve_ready hm hr₁ id'
    have hnamed := hg₂.named (hg₁.named hn)
    obtain rfl := hr₂.sound.valid.name_unique howned hnamed.owned
    have hfirst : defs₁.table = defs.table := (congrArg (·.1.table) hcanonical).symm
    have hsecond : defs₂.table = defs₁.table := (congrArg (·.1.table) hresolve).symm
    refine ⟨defs₂, ?_, hsecond.trans hfirst⟩
    show buildSharedWithin model (model.size + 1) [] defs id' = _
    unfold buildSharedWithin
    rw [hcanonical]
    dsimp only
    rw [hresolve]
    exact if_pos hnamed.there
  | unpacking =>
    obtain ⟨defs₁, n₁, hresolve, hr₁, hg₁, howned⟩ := resolve_ready hm hr id'
    have hnamed := hg₁.named hn
    obtain rfl := hr₁.sound.valid.name_unique howned hnamed.owned
    have htable : defs₁.table = defs.table := (congrArg (·.1.table) hresolve).symm
    refine ⟨defs₁, ?_, htable⟩
    show buildFlat model defs id' = _
    unfold buildFlat
    rw [hresolve]
    exact if_pos hnamed.there

/-- `build` succeeds, and what it adds comes after what is there, in `Moments` that follow one
another. -/
theorem build_laid (hm : model.Linked) (h : Sound strategy model defs) (id : NodeId) :
    ∃ defs' n, defs.build strategy model id = .ok (defs', n) ∧
      Builds strategy model (fun _ => True) defs id defs' n ∧ Moments [] defs defs' := by
  obtain ⟨defs', n, hbuild, hb⟩ := build_ok hm h id
  exact ⟨defs', n, hbuild, hb, (lays_build strategy model _ _ _ _ hbuild).1⟩

/-- `callAll` succeeds on `Sound` definitions, and leaves such. -/
theorem callAll_ok (hm : model.Linked) : ∀ (cs : List Call) (defs : Definitions),
    Sound strategy model defs →
    ∃ defs', callAll strategy model cs defs = .ok defs' ∧ Sound strategy model defs' ∧
      Grows (fun _ => True) defs defs' ∧ Moments [] defs defs'
  | [], defs, h => ⟨defs, rfl, h, .refl _ _, .refl⟩
  | c :: cs, defs, h => by
    obtain ⟨defs₁, n, hbuild, hb, hmoments₁⟩ := build_laid hm h c.node
    obtain ⟨defs', hrest, h', hg, hmoments₂⟩ := callAll_ok hm cs defs₁ hb.sound
    refine ⟨defs', ?_, h', hb.grows.trans hg fun _ h => h, hmoments₁.trans hmoments₂⟩
    rw [callAll, call_of_build hbuild]
    exact hrest

/-- What a call that answers with the name `n` has done to definitions that stood in an order. -/
structure Done (strategy : Strategy) (model : DataModel) (order : List String) (defs : Definitions)
    (c : Call) (defs' : Definitions) (n : String) : Prop where
  there : defs'.table.contains n = true
  kept : ∀ k d, defs.table.find? k = some d → defs'.table.find? k = some d
  ordered : ∃ more, Ordered defs'.table (order ++ more)
  /-- A call for a node with the same canonical node gives the same name and adds nothing. -/
  again : ∀ (later : List Call) (c' : Call), model.canonical c'.node = model.canonical c.node →
    ∃ defs₁ defs₂, callAll strategy model later defs' = .ok defs₁ ∧
      call strategy model defs₁ c' = .ok (defs₂, c'.answer n) ∧ defs₂.table = defs₁.table
  /-- Where nothing is shared, one definition at most is added, and none is composed. -/
  flat : strategy = .unpacking → (∀ k ≠ n, defs'.table.find? k = defs.table.find? k) ∧
    ∀ k d, defs'.table.find? k = some d → d.isComposed = false

theorem call_done (hm : model.Linked) (h : Sound strategy model defs) {order : List String}
    (ho : Ordered defs.table order) (c : Call) :
    ∃ defs' n, call strategy model defs c = .ok (defs', c.answer n) ∧
      Done strategy model order defs c defs' n := by
  obtain ⟨defs', n, hbuild, hb, hmoments⟩ := build_laid hm h c.node
  refine ⟨defs', n, call_of_build hbuild, hb.named.there, hb.grows.kept, hmoments.ordered ho,
    fun later c' hsame => ?_, ?_⟩
  · obtain ⟨defs₁, hlater, h₁, hg, -⟩ := callAll_ok hm later defs' hb.sound
    obtain ⟨defs₂, hagain, htable⟩ := build_again hm h₁ (hg.named hb.named) hsame
    exact ⟨defs₁, defs₂, hlater, call_of_build hagain, htable⟩
  · rintro rfl
    exact ⟨fun k hk => find?_buildFlat hm h hbuild hk, fun k d hd => hb.sound.isComposed hd⟩

/-- After any calls the table is `Ordered`: its definitions stand in an order in which each refers
to earlier ones only, so none dangles and no cycle arises. Whatever is called next succeeds with a
name that stays. -/
theorem callAll_done {sources : List Source.Module} (h : link sources = .ok model)
    (strategy : Strategy) (cs : List Call) :
    ∃ defs order, callAll strategy model cs {} = .ok defs ∧ Ordered defs.table order ∧
      (∀ n r, RefersTo defs.table n r → defs.table.contains r = true) ∧
      (∀ n, ¬ TransGen (RefersTo defs.table) n n) ∧
      ∀ c, ∃ defs' n, call strategy model defs c = .ok (defs', c.answer n) ∧
        Done strategy model order defs c defs' n := by
  obtain ⟨hm, -⟩ := linked_of_link h
  obtain ⟨defs, hall, hs, -, hmoments⟩ := callAll_ok hm cs {} (sound_empty strategy model)
  obtain ⟨order, ho⟩ := hmoments.ordered ordered_empty
  exact ⟨defs, order, hall, ho, fun _ _ => ho.closed, ho.acyclic, call_done hm hs ho⟩

theorem callAll_done_sharing : ∃ model, link sharing = .ok model ∧
    ∃ defs order,
      callAll .optimizing model [.build 13, .schemaFor 4, .build 8] {} = .ok defs ∧
      Ordered defs.table order ∧
      (∀ n r, RefersTo defs.table n r → defs.table.contains r = true) ∧
      (∀ n, ¬ TransGen (RefersTo defs.table) n n) ∧
      ∀ c, ∃ defs' n, call .optimizing model defs c = .ok (defs', c.answer n) ∧
        Done .optimizing model order defs c defs' n := by
  obtain ⟨model, h⟩ := link_sharing
  exact ⟨model, h, callAll_done h .optimizing [.build 13, .schemaFor 4, .build 8]⟩

end RestSpec.Definitions
